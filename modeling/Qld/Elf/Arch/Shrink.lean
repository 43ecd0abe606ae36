import Mathlib.Algebra.BigOperators.Group.List.Basic
import Mathlib.Data.Set.BooleanAlgebra
import Mathlib.Order.CompletePartialOrder
import Qld.Elf.Bytes
import Qld.Elf.Word
import Qld.Lib.BitRank
import Qld.Lib.LittleEndian

/-!
# The copier of a shrunk section agrees with the map of its offsets

The edits that linker relaxation makes to an input section, where they move the offsets of it, and
the copier that writes the edited section.

* `Rewrite`, `Edit`, `SectionRelax` — the edits of one section;
* `SectionRelax.map` — where an offset ends up, by a search over the cumulative deltas;
* `copy` — the copier: a cursor over the input and one over the output.

The output keeps, next to its bytes, the ranges that were written: nothing of the source reads them.
A `usize` is 64 bits wide, so that the conversion of an offset does not fail.

* `Edits.Ok` — edits at ascending offsets, of ranges inside the data that are apart;
* `edited` — the bytes that a run of the copier writes, as one recursion over the edits;
* `deleted` — the bytes deleted before an offset; `map_eq` reads the search over the deltas as that;
* `copy_spec` — the copier writes `edited`, in runs that follow one another;
* `edited_moved`, `edited_split` — where the bytes between the edits stand, and those of an edit;
* `copy_ok` — the copier agrees with the map;
* `copy_longWord` — but it leaves a gap where an edit keeps more bytes than a word has.
-/

namespace Qld.Elf.Arch.Shrink

open Qld.Lib

/-! ### Edits -/

/-- What relaxation does to the instruction (or padding) of one relocation. -/
inductive Rewrite where
  /-- Padding of `addend` bytes, trimmed by the edit's `remove` bytes. -/
  | align (addend : ℕ)
  | delete
  /-- The first `len` bytes become `word`; the writer then applies relocation type `rType`. -/
  | replace (word len rType : ℕ)
  | retype (rType : ℕ)
  deriving DecidableEq, Repr

/-- The bytes the rewrite keeps at the relocation's offset before the deleted ones. -/
def Rewrite.kept : Rewrite → ℕ
  | replace _ len _ => len
  | align _ | delete | retype _ => 0

/-- One relaxed relocation. -/
structure Edit where
  seq : ℕ
  index : ℕ
  offset : ℕ
  /-- Bytes deleted after the kept part of the instruction. -/
  remove : ℕ
  /-- Bytes deleted in the section up to and including this edit. -/
  delta : ℕ
  rewrite : Rewrite
  deriving DecidableEq, Repr

/-- The edits of one input section. -/
structure SectionRelax where
  id : ℕ
  edits : List Edit
  sorted : Bool
  deriving DecidableEq, Repr

namespace SectionRelax

/-- Bytes the edits delete. -/
def removed (relax : SectionRelax) : ℕ := (relax.edits.getLast?.map Edit.delta).getD 0

/-- Where an offset of the input section ends up: minus the bytes deleted before it. -/
def map (relax : SectionRelax) (offset : ℕ) : ℕ :=
  let before := partitionPoint (fun e => decide (e.offset < offset)) relax.edits
  let deleted := if before = 0 then 0 else (relax.edits[before - 1]?.map Edit.delta).getD 0
  offset - deleted

end SectionRelax

/-! ### The copier -/

/-- What fills padding: it leaves a slice of the same length. -/
structure Filler where
  fill : List UInt8 → List UInt8
  length_fill : ∀ padding, (fill padding).length = padding.length

/-- The output, and the ranges written so far. -/
structure Output where
  bytes : List UInt8
  writes : List (ℕ × ℕ)
  deriving DecidableEq, Repr

/-- Writes `src` to `out.get_mut(start..stop)`, when that is inside. -/
def Output.put (out : Output) (start stop : ℕ) (src : List UInt8 → List UInt8) : Output :=
  match getRange out.bytes start stop with
  | some dest => ⟨overwrite out.bytes start (src dest), out.writes ++ [(start, stop - start)]⟩
  | none => out

/-- The variables of the loop: the output, and the cursors `from` (into the data) and `to` (into the
output). -/
structure Cursor where
  out : Output
  read : ℕ
  write : ℕ
  deriving DecidableEq, Repr

/-- The closure `copy`: the bytes from the read cursor up to `stop`. -/
def copyUntil (data : List UInt8) (stop : ℕ) (c : Cursor) : Cursor :=
  let len := stop - c.read
  let out := match getRange data c.read stop with
    | some src => c.out.put c.write (saturatingAdd c.write len) fun _ => src
    | none => c.out
  { c with out := out, write := saturatingAdd c.write len }

/-- The bytes kept at the edit, and the output with them written. -/
def keep (filler : Filler) (e : Edit) (out : Output) (start : ℕ) : Output × ℕ :=
  match e.rewrite with
  | .align addend =>
    if ¬ 4 ∣ e.remove ∨ ¬ 4 ∣ addend then
      let kept := addend - e.remove
      (out.put start (saturatingAdd start kept) filler.fill, kept)
    else (out, 0)
  | .replace word len _ =>
    match getRange (leBytes 4 word) 0 len with
    | some src => (out.put start (saturatingAdd start len) fun _ => src, len)
    | none => (out, len)
  | .delete | .retype _ => (out, 0)

/-- One round of the loop. -/
def copyEdit (data : List UInt8) (filler : Filler) (c : Cursor) (e : Edit) : Cursor :=
  if e.offset < c.read then c
  else
    let c := copyUntil data e.offset c
    let kept := keep filler e c.out c.write
    { out := kept.1
      read := saturatingAdd (saturatingAdd e.offset kept.2) e.remove
      write := saturatingAdd c.write kept.2 }

/-- Copies `data` into `out` with the edits applied: deleted bytes are dropped, replaced
instructions written, and trimmed padding refilled when the trim does not remove whole 4-byte no-ops. -/
def copy (data : List UInt8) (relax : SectionRelax) (out : List UInt8) (filler : Filler) : Output :=
  (copyUntil data data.length
    (relax.edits.foldl (copyEdit data filler) ⟨⟨out, []⟩, 0, 0⟩)).out

/-! ### Edits of ranges that are apart -/

namespace Edit

/-- The bytes of the input that an edit takes. -/
def span (e : Edit) : ℕ :=
  match e.rewrite with
  | .align addend => addend
  | _ => e.rewrite.kept + e.remove

/-- The range of the input that an edit takes. -/
def range (e : Edit) : Set ℕ := Set.Ico e.offset (e.offset + e.span)

/-- The bytes of the output that stand for those of an edit, when the edit writes them itself. -/
def kept (e : Edit) : ℕ :=
  match e.rewrite with
  | .align addend => if ¬ 4 ∣ e.remove ∨ ¬ 4 ∣ addend then addend - e.remove else 0
  | .replace _ len _ => len
  | .delete | .retype _ => 0

end Edit

/-- Edits at ascending offsets, of ranges inside `n` bytes that are apart. -/
structure Edits.Ok (n : ℕ) (edits : List Edit) : Prop where
  sorted : edits.Pairwise fun a b => a.offset < b.offset
  inside : ∀ e ∈ edits, e.offset + e.span ≤ n
  trims : ∀ e ∈ edits, ∀ addend, e.rewrite = .align addend → e.remove ≤ addend
  apart : edits.Pairwise fun a b => Disjoint a.range b.range

/-- Each delta is the sum of the bytes removed so far. -/
def RunningSum : ℕ → List Edit → Prop
  | _, [] => True
  | d, e :: edits => e.delta = d + e.remove ∧ RunningSum (d + e.remove) edits

/-- No edit that takes bytes starts before `pos`. -/
def Clear (pos : ℕ) (edits : List Edit) : Prop := ∀ e ∈ edits, e.span = 0 ∨ pos ≤ e.offset

/-- The offset is in no range. -/
def Outside (edits : List Edit) (o : ℕ) : Prop := ∀ e ∈ edits, o ∉ e.range

/-- The bytes deleted before an offset. -/
def deleted (edits : List Edit) (o : ℕ) : ℕ :=
  ((edits.filter fun e => decide (e.offset < o)).map Edit.remove).sum

namespace Edits.Ok

variable {n : ℕ} {e : Edit} {edits : List Edit}

theorem tail (h : Edits.Ok n (e :: edits)) : Edits.Ok n edits where
  sorted := (List.pairwise_cons.mp h.sorted).2
  inside := fun a ha => h.inside a (List.mem_cons_of_mem _ ha)
  trims := fun a ha => h.trims a (List.mem_cons_of_mem _ ha)
  apart := (List.pairwise_cons.mp h.apart).2

theorem filter (h : Edits.Ok n edits) (p : Edit → Bool) : Edits.Ok n (edits.filter p) where
  sorted := h.sorted.filter p
  inside := fun a ha => h.inside a (List.mem_of_mem_filter ha)
  trims := fun a ha => h.trims a (List.mem_of_mem_filter ha)
  apart := h.apart.filter p

theorem offset_lt (h : Edits.Ok n (e :: edits)) : ∀ a ∈ edits, e.offset < a.offset :=
  (List.pairwise_cons.mp h.sorted).1

theorem remove_le (h : Edits.Ok n (e :: edits)) : e.kept + e.remove ≤ e.span := by
  unfold Edit.kept Edit.span
  cases hr : e.rewrite with
  | align addend =>
    have := h.trims e List.mem_cons_self addend hr
    dsimp only
    split <;> omega
  | delete | replace | retype => exact Nat.le_refl _

/-- An edit that starts within the range of an earlier one takes no bytes. -/
theorem span_eq_zero (h : Edits.Ok n (e :: edits)) {a : Edit} (ha : a ∈ edits)
    (hin : a.offset < e.offset + e.span) : a.span = 0 := by
  by_contra hne
  have hdisjoint := (List.pairwise_cons.mp h.apart).1 a ha
  have hlt := h.offset_lt a ha
  have hmem : a.offset ∈ e.range := ⟨hlt.le, hin⟩
  exact Set.disjoint_left.mp hdisjoint hmem ⟨Nat.le_refl _, by omega⟩

theorem clear_tail (h : Edits.Ok n (e :: edits)) : Clear (e.offset + e.span) edits := by
  intro a ha
  by_cases hin : a.offset < e.offset + e.span
  · exact .inl (h.span_eq_zero ha hin)
  · exact .inr (Nat.le_of_not_lt hin)

end Edits.Ok

variable {edits : List Edit}

theorem Clear.mono {p q : ℕ} (h : Clear q edits) (hpq : p ≤ q) :
    Clear p edits := fun e he => (h e he).imp_right hpq.trans

variable {e : Edit}

theorem Clear.tail {p : ℕ} (h : Clear p (e :: edits)) :
    Clear p edits := fun a ha => h a (List.mem_cons_of_mem _ ha)

variable {o n : ℕ}

theorem Outside.tail (h : Outside (e :: edits) o) :
    Outside edits o := fun a ha => h a (List.mem_cons_of_mem _ ha)

theorem Outside.cases (h : Outside (e :: edits) o) :
    o < e.offset ∨ e.offset + e.span ≤ o := by
  have hout := h e List.mem_cons_self
  unfold Edit.range at hout
  rw [Set.mem_Ico] at hout
  omega

/-! ### The bytes deleted before an offset -/

@[simp] theorem deleted_nil (o : ℕ) : deleted [] o = 0 := rfl

theorem deleted_cons_of_lt (edits : List Edit) (h : e.offset < o) :
    deleted (e :: edits) o = e.remove + deleted edits o := by
  rw [deleted, List.filter_cons_of_pos (by exact decide_eq_true h), List.map_cons, List.sum_cons,
    deleted]

theorem deleted_cons_of_le (edits : List Edit) (h : o ≤ e.offset) :
    deleted (e :: edits) o = deleted edits o := by
  rw [deleted, List.filter_cons_of_neg (by rw [decide_eq_true_eq]; omega), deleted]

theorem deleted_eq_zero (h : ∀ e ∈ edits, e.offset < o → e.remove = 0) : deleted edits o = 0 := by
  refine List.sum_eq_zero fun x hx => ?_
  obtain ⟨e, he, rfl⟩ := List.mem_map.mp hx
  obtain ⟨hmem, hlt⟩ := List.mem_filter.mp he
  exact h e hmem (of_decide_eq_true hlt)

/-- The edits before an offset, and those from it on. -/
theorem deleted_add {o' : ℕ} (h : o ≤ o') (edits : List Edit) :
    deleted edits o' =
      deleted edits o + deleted (edits.filter fun e => decide (o ≤ e.offset)) o' := by
  induction edits with
  | nil => rfl
  | cons e edits ih =>
    by_cases ho : e.offset < o
    · rw [deleted_cons_of_lt edits (ho.trans_le h), deleted_cons_of_lt edits ho,
        List.filter_cons_of_neg (by rw [decide_eq_true_eq]; omega), ih, Nat.add_assoc]
    · rw [deleted_cons_of_le edits (Nat.le_of_not_lt ho),
        List.filter_cons_of_pos (by exact decide_eq_true (Nat.le_of_not_lt ho))]
      by_cases ho' : e.offset < o'
      · rw [deleted_cons_of_lt edits ho', deleted_cons_of_lt _ ho', ih]
        omega
      · rw [deleted_cons_of_le edits (Nat.le_of_not_lt ho'),
          deleted_cons_of_le _ (Nat.le_of_not_lt ho'), ih]

/-- **The bytes deleted between `r` and an offset outside the ranges lie between them.** -/
theorem add_deleted_le (edits : List Edit) :
    ∀ r, Edits.Ok n edits → Clear r edits → Outside edits o → r ≤ o → r + deleted edits o ≤ o := by
  induction edits with
  | nil => exact fun r _ _ _ hle => hle
  | cons e edits ih =>
    intro r hok hclear hout hle
    have hremove := hok.remove_le
    rcases hout.cases with hlt | hge
    · rw [deleted_eq_zero fun a ha halt => ?_, Nat.add_zero]
      · exact hle
      · rcases List.mem_cons.mp ha with rfl | ha
        · omega
        · have := hok.offset_lt a ha
          omega
    · have hrest := ih _ hok.tail hok.clear_tail hout.tail hge
      have hrest' := ih r hok.tail hclear.tail hout.tail hle
      have hhead := hclear e List.mem_cons_self
      rcases Nat.lt_or_ge e.offset o with hlt | hge'
      · rw [deleted_cons_of_lt edits hlt]
        omega
      · rw [deleted_cons_of_le edits hge']
        exact hrest'

/-- **The bytes deleted from `r` on leave the rest of the data.** -/
theorem add_removed_le {r : ℕ} (hok : Edits.Ok n edits) (hclear : Clear r edits) (hr : r ≤ n) :
    r + (edits.map Edit.remove).sum ≤ n := by
  have hout : Outside edits n := fun e he hin => by
    have := hok.inside e he
    have := hin.2
    omega
  have hall : (edits.map Edit.remove).sum = deleted edits n := by
    clear hclear hout
    induction edits with
    | nil => rfl
    | cons e edits ih =>
      have hinside := hok.inside e List.mem_cons_self
      have hremove := hok.remove_le
      rw [List.map_cons, List.sum_cons, ih hok.tail]
      by_cases hlt : e.offset < n
      · rw [deleted_cons_of_lt edits hlt]
      · rw [deleted_cons_of_le edits (Nat.le_of_not_lt hlt)]
        omega
  rw [hall]
  exact add_deleted_le edits r hok hclear hout hr

theorem searched_eq (edits : List Edit) :
    ∀ d, Edits.Ok n edits → RunningSum d edits →
      (if partitionPoint (fun e => decide (e.offset < o)) edits = 0 then d
        else (edits[partitionPoint (fun e => decide (e.offset < o)) edits - 1]?.map
          Edit.delta).getD 0) = d + deleted edits o := by
  induction edits with
  | nil => exact fun d _ _ => rfl
  | cons e edits ih =>
    intro d hok hsum
    by_cases hlt : e.offset < o
    · have hpoint : partitionPoint (fun e => decide (e.offset < o)) (e :: edits) =
          partitionPoint (fun e => decide (e.offset < o)) edits + 1 := by
        rw [partitionPoint, List.takeWhile_cons_of_pos (by exact decide_eq_true hlt),
          List.length_cons, partitionPoint]
      rw [hpoint, if_neg (Nat.succ_ne_zero _), Nat.add_sub_cancel, deleted_cons_of_lt edits hlt,
        ← Nat.add_assoc, ← ih _ hok.tail hsum.2]
      split
      · next hzero =>
        rw [hzero, ← hsum.1]
        rfl
      · next hne =>
        obtain ⟨k, hk⟩ := Nat.exists_eq_succ_of_ne_zero hne
        rw [hk, List.getElem?_cons_succ, Nat.succ_sub_one]
    · have hpoint : partitionPoint (fun e => decide (e.offset < o)) (e :: edits) = 0 := by
        rw [partitionPoint, List.takeWhile_cons_of_neg (by rwa [decide_eq_true_eq])]
        rfl
      rw [hpoint, if_pos rfl, deleted_eq_zero fun a ha halt => ?_, Nat.add_zero]
      rcases List.mem_cons.mp ha with rfl | ha
      · exact absurd halt hlt
      · have := hok.offset_lt a ha
        omega

variable {relax : SectionRelax}

/-- **The map takes off the bytes deleted before the offset.** -/
theorem map_eq (hok : Edits.Ok n relax.edits) (hsum : RunningSum 0 relax.edits) (o : ℕ) :
    relax.map o = o - deleted relax.edits o := by
  have hsearched := searched_eq (o := o) relax.edits 0 hok hsum
  rw [Nat.zero_add] at hsearched
  rw [SectionRelax.map, hsearched]

theorem removed_eq (hsum : RunningSum 0 relax.edits) :
    relax.removed = (relax.edits.map Edit.remove).sum := by
  have hlast : ∀ (edits : List Edit) (d : ℕ), RunningSum d edits →
      (edits.getLast?.map Edit.delta).getD d = d + (edits.map Edit.remove).sum := by
    intro edits
    induction edits with
    | nil => exact fun d _ => rfl
    | cons e edits ih =>
      intro d h
      have hrest := ih _ h.2
      rw [List.map_cons, List.sum_cons, ← Nat.add_assoc, ← hrest, List.getLast?_cons, ← h.1]
      cases edits.getLast? <;> rfl
  rw [SectionRelax.removed, hlast _ _ hsum, Nat.zero_add]

/-! ### The bytes the copier writes -/

/-- The bytes an edit writes at position `pos` of the output. -/
def editBytes (filler : Filler) (out : List UInt8) (e : Edit) (pos : ℕ) : List UInt8 :=
  match e.rewrite with
  | .align _ => filler.fill ((out.drop pos).take e.kept)
  | .replace word _ _ => (leBytes 4 word).take e.kept
  | .delete | .retype _ => []

/-- The bytes the loop writes from the cursors `read` and `write` on. -/
def edited (data : List UInt8) (filler : Filler) (out : List UInt8) :
    List Edit → ℕ → ℕ → List UInt8
  | [], read, _ => data.drop read
  | e :: edits, read, write =>
    if e.offset < read then edited data filler out edits read write
    else
      (data.drop read).take (e.offset - read) ++
        editBytes filler out e (write + (e.offset - read)) ++
          edited data filler out edits (e.offset + e.kept + e.remove)
            (write + (e.offset - read) + e.kept)

section

variable {data out : List UInt8} (filler : Filler)

variable {e : Edit}

theorem length_editBytes {pos : ℕ} (hfits : e.rewrite.kept ≤ 4) (hpos : pos + e.kept ≤ out.length) :
    (editBytes filler out e pos).length = e.kept := by
  unfold editBytes
  unfold Edit.kept at hpos ⊢
  cases hr : e.rewrite with
  | align addend =>
    rw [hr] at hpos
    dsimp only at hpos ⊢
    rw [filler.length_fill, List.length_take, List.length_drop]
    omega
  | replace word len rType =>
    rw [hr] at hfits
    dsimp only [Rewrite.kept] at hfits ⊢
    rw [List.length_take, length_leBytes]
    omega
  | delete | retype => rfl

/-- The output after some bytes: those, and the rest as it was; each was written once. -/
structure Wrote (out before : List UInt8) (o : Output) : Prop where
  bytes : o.bytes = before ++ out.drop before.length
  writes : Tiles 0 before.length o.writes

theorem getRange_eq_some {l : List UInt8} {start n : ℕ} (h : start + n ≤ l.length) :
    getRange l start (start + n) = some ((l.drop start).take n) := by
  rw [getRange, if_pos ⟨Nat.le_add_right _ _, h⟩, Nat.add_sub_cancel_left]

variable {before : List UInt8}

theorem Wrote.put {o : Output} (h : Wrote out before o) {n : ℕ}
    (hfit : before.length + n ≤ out.length) (src : List UInt8 → List UInt8)
    (hsrc : (src ((out.drop before.length).take n)).length = n) :
    Wrote out (before ++ src ((out.drop before.length).take n))
      (o.put before.length (before.length + n) src) := by
  have hlen : before.length + n ≤ o.bytes.length := by
    rw [h.bytes, List.length_append, List.length_drop]
    omega
  have hdest : (o.bytes.drop before.length).take n = (out.drop before.length).take n := by
    rw [h.bytes, List.drop_left]
  have hput : o.put before.length (before.length + n) src =
      ⟨overwrite o.bytes before.length (src ((out.drop before.length).take n)),
        o.writes ++ [(before.length, n)]⟩ := by
    rw [Output.put, getRange_eq_some hlen, hdest]
    dsimp only
    rw [Nat.add_sub_cancel_left]
  rw [hput]
  refine ⟨?_, ?_⟩
  · dsimp only
    rw [overwrite, h.bytes, List.take_left, List.length_append, hsrc, ← List.drop_drop,
      List.drop_left, List.drop_drop]
  · rw [List.length_append, hsrc]
    exact tiles_concat n _ h.writes

variable (hout : out.length < 2 ^ 64)

include hout

theorem copyUntil_spec (data : List UInt8) {c : Cursor} {stop : ℕ} (h : Wrote out before c.out)
    (hwrite : c.write = before.length) (hread : c.read ≤ stop) (hstop : stop ≤ data.length)
    (hfit : before.length + (stop - c.read) ≤ out.length) :
    Wrote out (before ++ (data.drop c.read).take (stop - c.read)) (copyUntil data stop c).out ∧
      (copyUntil data stop c).write = before.length + (stop - c.read) := by
  have hsrc : getRange data c.read stop = some ((data.drop c.read).take (stop - c.read)) := by
    rw [getRange, if_pos ⟨hread, hstop⟩]
  have hlen : ((data.drop c.read).take (stop - c.read)).length = stop - c.read := by
    rw [List.length_take, List.length_drop]
    omega
  have hadd : saturatingAdd c.write (stop - c.read) = before.length + (stop - c.read) := by
    rw [hwrite, saturatingAdd_of_lt (by omega)]
  rw [copyUntil, hsrc]
  dsimp only
  rw [hadd, hwrite]
  exact ⟨h.put hfit (fun _ => _) hlen, rfl⟩

theorem keep_spec {o : Output} (h : Wrote out before o) (hfits : e.rewrite.kept ≤ 4)
    (hfit : before.length + e.kept ≤ out.length) :
    Wrote out (before ++ editBytes filler out e before.length)
        (keep filler e o before.length).1 ∧
      (keep filler e o before.length).2 = e.kept := by
  have hlen : (editBytes filler out e before.length).length = e.kept :=
    length_editBytes filler hfits hfit
  have hadd : saturatingAdd before.length e.kept = before.length + e.kept :=
    saturatingAdd_of_lt (by omega)
  unfold keep
  unfold editBytes at hlen ⊢
  cases hr : e.rewrite with
  | align addend =>
    rw [hr] at hlen
    dsimp only at hlen ⊢
    by_cases hnops : ¬ 4 ∣ e.remove ∨ ¬ 4 ∣ addend
    · have hkept : addend - e.remove = e.kept := by
        unfold Edit.kept
        rw [hr]
        exact (if_pos hnops).symm
      rw [if_pos hnops, hkept, hadd]
      exact ⟨h.put hfit filler.fill hlen, rfl⟩
    · have hkept : e.kept = 0 := by
        unfold Edit.kept
        rw [hr]
        exact if_neg hnops
      rw [hkept] at hlen
      rw [if_neg hnops, hkept, List.length_eq_zero_iff.mp hlen, List.append_nil]
      exact ⟨h, rfl⟩
  | replace word len rType =>
    have hkept : e.kept = len := by
      unfold Edit.kept
      rw [hr]
    rw [hr] at hfits hlen
    dsimp only [Rewrite.kept] at hfits hlen ⊢
    rw [hkept] at hlen hadd hfit ⊢
    rw [getRange, if_pos ⟨Nat.zero_le _, by rwa [length_leBytes]⟩]
    dsimp only
    rw [hadd, List.drop_zero, Nat.sub_zero]
    exact ⟨h.put hfit (fun _ => _) hlen, rfl⟩
  | delete | retype =>
    rw [List.append_nil]
    unfold Edit.kept
    rw [hr]
    exact ⟨h, rfl⟩

/-- **The loop and the copy behind it write `edited`.** -/
theorem foldl_copyEdit_spec (hdata : data.length < 2 ^ 64) (edits : List Edit) :
    ∀ (c : Cursor) (before : List UInt8), Edits.Ok data.length edits → Clear c.read edits →
      (∀ e ∈ edits, e.rewrite.kept ≤ 4) → c.read ≤ data.length → Wrote out before c.out →
      c.write = before.length →
      before.length + data.length = out.length + c.read + (edits.map Edit.remove).sum →
      Wrote out (before ++ edited data filler out edits c.read c.write)
          (copyUntil data data.length (edits.foldl (copyEdit data filler) c)).out ∧
        (before ++ edited data filler out edits c.read c.write).length = out.length := by
  induction edits with
  | nil =>
    intro c before hok hclear hfits hread hwrote hwrite hlen
    rw [List.map_nil, List.sum_nil] at hlen
    have hcopy := (copyUntil_spec hout data hwrote hwrite hread (Nat.le_refl _) (by omega)).1
    rw [List.take_of_length_le (by rw [List.length_drop])] at hcopy
    refine ⟨hcopy, ?_⟩
    rw [edited, List.length_append, List.length_drop]
    omega
  | cons e edits ih =>
    intro c before hok hclear hfits hread hwrote hwrite hlen
    have hfits' := fun a ha => hfits a (List.mem_cons_of_mem e ha)
    have hremove := hok.remove_le
    rw [List.map_cons, List.sum_cons] at hlen
    rw [List.foldl_cons, copyEdit, edited]
    by_cases hskip : e.offset < c.read
    · -- An edit inside the range of an earlier one takes no bytes.
      have hspan := (hclear e List.mem_cons_self).resolve_right (Nat.not_le_of_lt hskip)
      rw [if_pos hskip, if_pos hskip]
      exact ih c before hok.tail hclear.tail hfits' hread hwrote hwrite (by omega)
    · have hinside := hok.inside e List.mem_cons_self
      have hrest := add_removed_le (hok.tail) (hok.clear_tail) hinside
      rw [if_neg hskip, if_neg hskip]
      obtain ⟨hcopy, hcopied⟩ := copyUntil_spec hout data hwrote hwrite
        (Nat.le_of_not_lt hskip) (by omega) (by omega)
      have hbefore : (before ++ (data.drop c.read).take (e.offset - c.read)).length =
          before.length + (e.offset - c.read) := by
        rw [List.length_append, List.length_take, List.length_drop]
        omega
      obtain ⟨hkeep, hkept⟩ := keep_spec filler hout hcopy
        (hfits e List.mem_cons_self) (by omega)
      rw [hbefore, ← hcopied] at hkeep hkept
      have hbytes :
          (editBytes filler out e (before.length + (e.offset - c.read))).length = e.kept :=
        length_editBytes filler (hfits e List.mem_cons_self) (by omega)
      have hstep := ih
        ⟨(keep filler e (copyUntil data e.offset c).out (copyUntil data e.offset c).write).1,
          e.offset + e.kept + e.remove, before.length + (e.offset - c.read) + e.kept⟩ _ hok.tail
        (hok.clear_tail.mono (by dsimp only; omega)) hfits' (by dsimp only; omega) hkeep ?_ ?_
      · have hread' : saturatingAdd (saturatingAdd e.offset e.kept) e.remove =
            e.offset + e.kept + e.remove := by
          rw [saturatingAdd_of_lt (a := e.offset) (by omega), saturatingAdd_of_lt (by omega)]
        have hwrite' : saturatingAdd (before.length + (e.offset - c.read)) e.kept =
            before.length + (e.offset - c.read) + e.kept := saturatingAdd_of_lt (by omega)
        dsimp only
        rw [hkept, hread', hcopied, hwrite', hwrite]
        rw [hcopied, List.append_assoc, List.append_assoc] at hstep
        rw [List.append_assoc]
        exact hstep
      · rw [hcopied, List.length_append, hbefore, hbytes]
      · dsimp only
        rw [hcopied, List.length_append, hbefore, hbytes]
        omega

omit hout

variable {edits : List Edit} {read write : ℕ}

/-- What the loop writes when the edit is not inside the range of an earlier one. -/
theorem edited_cons (h : read ≤ e.offset) :
    edited data filler out (e :: edits) read write =
      (data.drop read).take (e.offset - read) ++
        editBytes filler out e (write + (e.offset - read)) ++
          edited data filler out edits (e.offset + e.kept + e.remove)
            (write + (e.offset - read) + e.kept) := by
  rw [edited, if_neg (Nat.not_lt_of_le h)]

theorem edited_cons_of_lt (h : e.offset < read) :
    edited data filler out (e :: edits) read write =
      edited data filler out edits read write := by
  rw [edited, if_pos h]

/-- The output has room for what the edits leave. -/
def Room (data out : List UInt8) (edits : List Edit) (read write : ℕ) : Prop :=
  write + data.length = out.length + read + (edits.map Edit.remove).sum

theorem Room.tail (hroom : Room data out (e :: edits) read write)
    (hok : Edits.Ok data.length (e :: edits)) (hle : read ≤ e.offset) :
    write + (e.offset - read) + e.kept ≤ out.length ∧
      Room data out edits (e.offset + e.kept + e.remove) (write + (e.offset - read) + e.kept) := by
  have hinside := hok.inside e List.mem_cons_self
  have hremove := hok.remove_le
  have hrest := add_removed_le hok.tail hok.clear_tail hinside
  unfold Room at hroom ⊢
  rw [List.map_cons, List.sum_cons] at hroom
  omega

theorem Room.skip (hroom : Room data out (e :: edits) read write)
    (hok : Edits.Ok data.length (e :: edits)) (hspan : e.span = 0) :
    Room data out edits read write := by
  have hremove := hok.remove_le
  unfold Room at hroom ⊢
  rw [List.map_cons, List.sum_cons] at hroom
  omega

/-- **A byte outside the ranges moves down by the bytes deleted before it.** -/
theorem edited_moved {o : ℕ} (ho : o < data.length) (edits : List Edit) :
    ∀ read write, Edits.Ok data.length edits → Clear read edits →
      (∀ e ∈ edits, e.rewrite.kept ≤ 4) → Room data out edits read write → Outside edits o →
      read ≤ o →
        (edited data filler out edits read write)[o - read - deleted edits o]? = data[o]? := by
  induction edits with
  | nil =>
    intro read write _ _ _ _ _ hle
    rw [edited, deleted_nil, Nat.sub_zero, List.getElem?_drop, Nat.add_sub_cancel' hle]
  | cons e edits ih =>
    intro read write hok hclear hfits hroom hout hle
    have hfits' := fun a ha => hfits a (List.mem_cons_of_mem e ha)
    have hremove := hok.remove_le
    by_cases hskip : e.offset < read
    · have hspan := (hclear e List.mem_cons_self).resolve_right (Nat.not_le_of_lt hskip)
      have hzero : e.remove = 0 := by omega
      rw [edited_cons_of_lt filler hskip, deleted_cons_of_lt edits (hskip.trans_le hle), hzero,
        Nat.zero_add]
      exact ih read write hok.tail hclear.tail hfits' (hroom.skip hok hspan) hout.tail hle
    · have hread := Nat.le_of_not_lt hskip
      obtain ⟨hfit, hroom'⟩ := hroom.tail hok hread
      have hbytes : (editBytes filler out e (write + (e.offset - read))).length = e.kept :=
        length_editBytes filler (hfits e List.mem_cons_self) hfit
      have hinside := hok.inside e List.mem_cons_self
      have htake : ((data.drop read).take (e.offset - read)).length = e.offset - read := by
        rw [List.length_take, List.length_drop]
        omega
      rw [edited_cons filler hread]
      rcases hout.cases with hlt | hge
      · have hnone : deleted (e :: edits) o = 0 := by
          refine deleted_eq_zero fun a ha halt => ?_
          rcases List.mem_cons.mp ha with rfl | ha
          · omega
          · have := hok.offset_lt a ha
            omega
        rw [hnone, Nat.sub_zero, List.append_assoc, List.getElem?_append_left (by omega),
          List.getElem?_take, if_pos (by omega), List.getElem?_drop, Nat.add_sub_cancel' hle]
      · have hadd : deleted (e :: edits) o = e.remove + deleted edits o := by
          rcases Nat.lt_or_ge e.offset o with hlt | hge'
          · exact deleted_cons_of_lt edits hlt
          · rw [deleted_cons_of_le edits hge']
            omega
        have hle' : e.offset + e.kept + e.remove ≤ o := by omega
        have hdeleted := add_deleted_le edits _ hok.tail (hok.clear_tail.mono (by omega)) hout.tail
          hle'
        rw [← ih _ _ hok.tail (hok.clear_tail.mono (by omega)) hfits' hroom' hout.tail hle',
          List.getElem?_append_right (by rw [List.length_append]; omega)]
        congr 1
        rw [List.length_append]
        omega

/-- **What an edit writes stands where the bytes deleted before it say.** -/
theorem edited_split (edits : List Edit) :
    ∀ read write, Edits.Ok data.length edits → Clear read edits →
      (∀ e ∈ edits, e.rewrite.kept ≤ 4) → Room data out edits read write → e ∈ edits →
      0 < e.span →
      ∃ before rest, Edits.Ok data.length (e :: rest) ∧ (∀ a ∈ rest, a ∈ edits) ∧
        read + before.length + deleted edits e.offset = e.offset ∧
        write + before.length + e.kept ≤ out.length ∧
        Room data out rest (e.offset + e.kept + e.remove) (write + before.length + e.kept) ∧
        edited data filler out edits read write =
          before ++ editBytes filler out e (write + before.length) ++
            edited data filler out rest (e.offset + e.kept + e.remove)
              (write + before.length + e.kept) := by
  induction edits with
  | nil => exact fun _ _ _ _ _ _ he => absurd he List.not_mem_nil
  | cons a edits ih =>
    intro read write hok hclear hfits hroom he hspan
    have hfits' := fun b hb => hfits b (List.mem_cons_of_mem a hb)
    have hremove := hok.remove_le
    have hread : read ≤ e.offset := (hclear e he).resolve_left (Nat.ne_of_gt hspan)
    have hinside := hok.inside a List.mem_cons_self
    rcases List.mem_cons.mp he with rfl | hmem
    · obtain ⟨hfit, hroom'⟩ := hroom.tail hok hread
      have htake : ((data.drop read).take (e.offset - read)).length = e.offset - read := by
        rw [List.length_take, List.length_drop]
        omega
      refine ⟨(data.drop read).take (e.offset - read), edits, hok,
        fun b hb => List.mem_cons_of_mem _ hb, ?_, ?_, ?_, ?_⟩
      · rw [htake, deleted_eq_zero fun b hb hlt => ?_, Nat.add_zero, Nat.add_sub_cancel' hread]
        rcases List.mem_cons.mp hb with rfl | hb
        · exact absurd hlt (Nat.lt_irrefl _)
        · exact absurd hlt (hok.offset_lt b hb).asymm
      · rw [htake]
        exact hfit
      · rw [htake]
        exact hroom'
      · rw [htake]
        exact edited_cons filler hread
    · have hlt := hok.offset_lt e hmem
      have hdeleted := deleted_cons_of_lt edits hlt
      by_cases hskip : a.offset < read
      · have hzero := (hclear a List.mem_cons_self).resolve_right (Nat.not_le_of_lt hskip)
        obtain ⟨before, rest, hrest, hsub, hpos, hfit, hroom', heq⟩ := ih read write hok.tail
          hclear.tail hfits' (hroom.skip hok hzero) hmem hspan
        refine ⟨before, rest, hrest, fun b hb => List.mem_cons_of_mem _ (hsub b hb), ?_, hfit,
          hroom', ?_⟩
        · rw [hdeleted]
          omega
        · rw [edited_cons_of_lt filler hskip]
          exact heq
      · have hread' := Nat.le_of_not_lt hskip
        obtain ⟨hfita, hrooma⟩ := hroom.tail hok hread'
        have hbytes : (editBytes filler out a (write + (a.offset - read))).length = a.kept :=
          length_editBytes filler (hfits a List.mem_cons_self) hfita
        have htake : ((data.drop read).take (a.offset - read)).length = a.offset - read := by
          rw [List.length_take, List.length_drop]
          omega
        obtain ⟨before, rest, hrest, hsub, hpos, hfit, hroom', heq⟩ := ih _ _ hok.tail
          (hok.clear_tail.mono (by omega)) hfits' hrooma hmem hspan
        have hlen : ((data.drop read).take (a.offset - read) ++
            editBytes filler out a (write + (a.offset - read)) ++ before).length =
              (a.offset - read) + a.kept + before.length := by
          rw [List.length_append, List.length_append, htake, hbytes]
        have hwrite : write + ((a.offset - read) + a.kept + before.length) =
            write + (a.offset - read) + a.kept + before.length := by omega
        refine ⟨(data.drop read).take (a.offset - read) ++
          editBytes filler out a (write + (a.offset - read)) ++ before, rest, hrest,
          fun b hb => List.mem_cons_of_mem _ (hsub b hb), ?_, ?_, ?_, ?_⟩
        · rw [hlen, hdeleted]
          omega
        · rw [hlen, hwrite]
          exact hfit
        · rw [hlen, hwrite]
          exact hroom'
        · rw [hlen, hwrite, edited_cons filler hread', heq]
          simp only [List.append_assoc]

end

/-! ### The copier and the map -/

/-- Edits whose deltas are the running sums of what they remove. -/
structure SectionRelax.WellFormed (relax : SectionRelax) (n : ℕ) : Prop where
  ok : Edits.Ok n relax.edits
  sums : RunningSum 0 relax.edits

/-- The result of the copier, and the map of the offsets, say the same. -/
structure Copied (data : List UInt8) (relax : SectionRelax) (out : List UInt8) (filler : Filler)
    (result : Output) : Prop where
  length : result.bytes.length = out.length
  /-- Each byte is written once. -/
  once : ∀ p < out.length,
    result.writes.countP (fun run => decide (run.1 ≤ p ∧ p < run.1 + run.2)) = 1
  moved : ∀ o < data.length, Outside relax.edits o → result.bytes[relax.map o]? = data[o]?
  replaced : ∀ e ∈ relax.edits, ∀ word len rType, e.rewrite = .replace word len rType →
    StandsAt result.bytes (relax.map e.offset) ((leBytes 4 word).take len)
  /-- Trimmed padding: no-ops of the filler, or the end of the original padding. -/
  trimmed : ∀ e ∈ relax.edits, ∀ addend, e.rewrite = .align addend →
    ∃ padding, padding.length = addend - e.remove ∧
      StandsAt result.bytes (relax.map e.offset) padding ∧
      (padding = filler.fill ((out.drop (relax.map e.offset)).take (addend - e.remove)) ∨
        padding = (data.drop (e.offset + e.remove)).take (addend - e.remove))
  /-- What follows an edit follows what is left of it. -/
  ends : ∀ e ∈ relax.edits,
    relax.map (e.offset + e.span) = relax.map e.offset + (e.span - e.remove)
  strictMono : StrictMonoOn relax.map {o | Outside relax.edits o}

theorem Edits.Ok.remove_le_of_mem (h : Edits.Ok n edits) :
    ∀ e ∈ edits, e.kept + e.remove ≤ e.span := by
  induction edits with
  | nil => exact fun e he => absurd he List.not_mem_nil
  | cons a edits ih => exact List.forall_mem_cons.mpr ⟨h.remove_le, ih h.tail⟩

/-- Nothing is deleted by other edits within the range of one. -/
theorem Edits.Ok.deleted_tail (h : Edits.Ok n (e :: edits)) (ho : o ≤ e.offset + e.span) :
    deleted edits o = 0 := by
  refine deleted_eq_zero fun a ha hlt => ?_
  have hspan := h.span_eq_zero ha (hlt.trans_le ho)
  have := h.tail.remove_le_of_mem a ha
  omega

theorem Edits.Ok.deleted_head (h : Edits.Ok n (e :: edits)) :
    deleted (e :: edits) e.offset = 0 := by
  rw [deleted_cons_of_le edits (Nat.le_refl _), h.deleted_tail (Nat.le_add_right _ _)]

theorem deleted_end (edits : List Edit) (h : Edits.Ok n edits) (he : e ∈ edits) :
    deleted edits (e.offset + e.span) = deleted edits e.offset + e.remove := by
  induction edits with
  | nil => exact absurd he List.not_mem_nil
  | cons a edits ih =>
    rcases List.mem_cons.mp he with rfl | hmem
    · have hremove := h.remove_le
      rw [h.deleted_head]
      rcases Nat.eq_zero_or_pos e.span with hzero | hpos
      · rw [hzero, Nat.add_zero, h.deleted_head]
        omega
      · rw [deleted_cons_of_lt edits (by omega), h.deleted_tail (Nat.le_refl _)]
        omega
    · have hlt := h.offset_lt e hmem
      rw [deleted_cons_of_lt edits (by omega), deleted_cons_of_lt edits hlt, ih h.tail hmem,
        Nat.add_assoc]

theorem deleted_le_offset (edits : List Edit) (h : Edits.Ok n edits) (he : e ∈ edits)
    (hspan : 0 < e.span) :
    ∀ r, Clear r edits → r + deleted edits e.offset ≤ e.offset := by
  induction edits with
  | nil => exact absurd he List.not_mem_nil
  | cons a edits ih =>
    intro r hclear
    have hr : r ≤ e.offset := (hclear e he).resolve_left (Nat.ne_of_gt hspan)
    rcases List.mem_cons.mp he with rfl | hmem
    · rw [h.deleted_head]
      exact hr
    · have hremove := h.remove_le
      have hrest := ih h.tail hmem _ h.clear_tail
      have hrest' := ih h.tail hmem r hclear.tail
      have hhead := hclear a List.mem_cons_self
      rw [deleted_cons_of_lt edits (h.offset_lt e hmem)]
      omega

theorem clear_zero (edits : List Edit) : Clear 0 edits := fun _ _ => .inr (Nat.zero_le _)

/-- **The map is strictly increasing outside the ranges.** -/
theorem strictMonoOn_map (h : relax.WellFormed n) :
    StrictMonoOn relax.map {o | Outside relax.edits o} := by
  intro o ho o' ho' hlt
  rw [map_eq h.ok h.sums, map_eq h.ok h.sums, deleted_add hlt.le]
  have hlow := add_deleted_le relax.edits 0 h.ok (clear_zero _) ho (Nat.zero_le _)
  have hclear : Clear (o + 1) (relax.edits.filter fun e => decide (o ≤ e.offset)) := by
    intro e he
    obtain ⟨hmem, hle⟩ := List.mem_filter.mp he
    have hout := ho e hmem
    have hle' := of_decide_eq_true hle
    unfold Edit.range at hout
    rw [Set.mem_Ico] at hout
    omega
  have hbetween := add_deleted_le _ (o + 1) (h.ok.filter _) hclear
    (fun e he => ho' e (List.mem_of_mem_filter he)) hlt
  omega

/-- **The copier and the map of the offsets agree (proved).** -/
theorem copy_ok (data : List UInt8) (relax : SectionRelax) (out : List UInt8) (filler : Filler)
    (hdata : data.length < 2 ^ 64) (h : relax.WellFormed data.length)
    (hfits : ∀ e ∈ relax.edits, e.rewrite.kept ≤ 4)
    (hout : out.length = data.length - relax.removed) :
    Copied data relax out filler (copy data relax out filler) := by
  have hremoved := removed_eq h.sums
  have hle := add_removed_le h.ok (clear_zero _) (Nat.zero_le _)
  have hroom : Room data out relax.edits 0 0 := by
    unfold Room
    omega
  have hwrote : Wrote out [] ⟨out, []⟩ := ⟨rfl, rfl⟩
  obtain ⟨hwritten, hlen⟩ := foldl_copyEdit_spec filler (by omega : out.length < 2 ^ 64)
    hdata relax.edits ⟨⟨out, []⟩, 0, 0⟩ [] h.ok (clear_zero _) hfits (Nat.zero_le _) hwrote rfl
    hroom
  rw [List.nil_append] at hwritten hlen
  have hbytes : (copy data relax out filler).bytes = edited data filler out relax.edits 0 0 := by
    rw [copy, hwritten.bytes, hlen, List.drop_length, List.append_nil]
  have hwrites : Tiles 0 out.length (copy data relax out filler).writes := hlen ▸ hwritten.writes
  -- Where an edit that takes bytes stands in the output.
  have hsplit : ∀ e ∈ relax.edits, 0 < e.span → ∃ rest,
      Edits.Ok data.length (e :: rest) ∧ (∀ a ∈ rest, a ∈ relax.edits) ∧
      Room data out rest (e.offset + e.kept + e.remove) (relax.map e.offset + e.kept) ∧
      (editBytes filler out e (relax.map e.offset)).length = e.kept ∧
      ∃ before, before.length = relax.map e.offset ∧
        edited data filler out relax.edits 0 0 =
          before ++ editBytes filler out e (relax.map e.offset) ++
            edited data filler out rest (e.offset + e.kept + e.remove)
              (relax.map e.offset + e.kept) := by
    intro e he hspan
    obtain ⟨before, rest, hrest, hsub, hpos, hfit, hroom', heq⟩ := edited_split filler
      relax.edits 0 0 h.ok (clear_zero _) hfits hroom he hspan
    have hmap : before.length = relax.map e.offset := by
      rw [map_eq h.ok h.sums]
      omega
    rw [Nat.zero_add, hmap] at hfit hroom' heq
    exact ⟨rest, hrest, hsub, hroom', length_editBytes filler (hfits e he) hfit, before, hmap, heq⟩
  refine ⟨?_, ?_, ?_, ?_, ?_, ?_, strictMonoOn_map h⟩
  · rw [hbytes, hlen]
  · exact fun p hp => tiles_countP _ 0 hwrites (Nat.zero_le _) hp
  · intro o ho houtside
    rw [hbytes, map_eq h.ok h.sums]
    exact edited_moved filler ho relax.edits 0 0 h.ok (clear_zero _) hfits hroom houtside
      (Nat.zero_le _)
  · intro e he word len rType hr
    rcases Nat.eq_zero_or_pos len with rfl | hpos
    · exact fun k hk => absurd hk (Nat.not_lt_zero _)
    · have hspan : 0 < e.span := by
        unfold Edit.span
        rw [hr]
        exact Nat.add_pos_left hpos _
      have hedit : ∀ pos, editBytes filler out e pos = (leBytes 4 word).take len := by
        intro pos
        unfold editBytes Edit.kept
        rw [hr]
      obtain ⟨rest, -, -, -, -, before, hbefore, heq⟩ := hsplit e he hspan
      rw [hbytes, heq, hedit, ← hbefore]
      exact standsAt_append _ _ _
  · intro e he addend hr
    have hspan : e.span = addend := by
      unfold Edit.span
      rw [hr]
    rcases Nat.eq_zero_or_pos addend with rfl | hpos
    · refine ⟨[], (Nat.zero_sub _).symm, fun k hk => absurd hk (Nat.not_lt_zero _), .inr ?_⟩
      rw [Nat.zero_sub, List.take_zero]
    · have htrims := h.ok.trims e he addend hr
      have hinside := h.ok.inside e he
      obtain ⟨rest, hrest, hsub, hroom', hlength, before, hbefore, heq⟩ :=
        hsplit e he (hspan ▸ hpos)
      have hedit : editBytes filler out e (relax.map e.offset) =
          filler.fill ((out.drop (relax.map e.offset)).take e.kept) := by
        unfold editBytes
        rw [hr]
      by_cases hnops : ¬ 4 ∣ e.remove ∨ ¬ 4 ∣ addend
      · have hkept : e.kept = addend - e.remove := by
          unfold Edit.kept
          rw [hr]
          exact if_pos hnops
        refine ⟨_, hlength.trans hkept, ?_, .inl (hkept ▸ hedit)⟩
        rw [hbytes, heq, ← hbefore]
        exact standsAt_append _ _ _
      · -- Whole no-ops go: the bytes behind them are copied with what follows.
        have hkept : e.kept = 0 := by
          unfold Edit.kept
          rw [hr]
          exact if_neg hnops
        have hlen' : ((data.drop (e.offset + e.remove)).take (addend - e.remove)).length =
            addend - e.remove := by
          rw [List.length_take, List.length_drop]
          omega
        refine ⟨_, hlen', fun k hk => ?_, .inr rfl⟩
        rw [hlen'] at hk
        have houtside : Outside rest (e.offset + e.remove + k) := by
          intro a ha hin
          have hmem : e.offset + e.remove + k ∈ e.range := ⟨by omega, by omega⟩
          exact Set.disjoint_left.mp ((List.pairwise_cons.mp hrest.apart).1 a ha) hmem hin
        have hmoved := edited_moved filler (by omega : e.offset + e.remove + k < data.length)
          rest (e.offset + e.kept + e.remove) (relax.map e.offset + e.kept) hrest.tail
          (hrest.clear_tail.mono (by omega)) (fun a ha => hfits a (hsub a ha)) hroom' houtside
          (by omega)
        rw [hrest.deleted_tail (by omega), Nat.sub_zero] at hmoved
        rw [hbytes, heq, List.length_eq_zero_iff.mp (hlength.trans hkept), List.append_nil,
          List.getElem?_append_right (by omega), List.getElem?_take, if_pos hk, List.getElem?_drop,
          ← hmoved]
        congr 1
        omega
  · intro e he
    have hremove := h.ok.remove_le_of_mem e he
    rw [map_eq h.ok h.sums, map_eq h.ok h.sums, deleted_end _ h.ok he]
    rcases Nat.eq_zero_or_pos e.span with hzero | hpos
    · omega
    · have := deleted_le_offset relax.edits h.ok he hpos 0 (clear_zero _)
      omega

/-! ### Edits of a section -/

/-- A filler that writes one byte throughout. -/
def fillWith (byte : UInt8) : Filler where
  fill := fun padding => List.replicate padding.length byte
  length_fill := fun _ => List.length_replicate

/-- A call that becomes a jump, and padding behind it that is trimmed. -/
def sampleRelax : SectionRelax :=
  ⟨0, [⟨0, 0, 0, 4, 4, .replace 0x6f 4 17⟩, ⟨2, 2, 8, 2, 6, .align 6⟩], true⟩

theorem sampleRelax_wellFormed : sampleRelax.WellFormed 18 where
  ok :=
    { sorted := by decide
      inside := by decide
      trims := by
        intro e he addend hr
        simp only [sampleRelax, List.mem_cons, List.not_mem_nil, or_false] at he
        rcases he with rfl | rfl
        · exact nomatch hr
        · cases hr
          decide
      apart := by
        refine List.pairwise_pair.mpr (Set.disjoint_left.mpr fun o hlow hhigh => ?_)
        exact absurd (hlow.2.trans_le (by decide)) (Nat.not_lt_of_le hhigh.1) }
  sums := ⟨rfl, rfl, trivial⟩

theorem copy_ok_sample :
    (copy (List.replicate 18 7) sampleRelax (List.replicate 12 0xaa) (fillWith 0xee)).bytes =
        [0x6f, 0, 0, 0, 0xee, 0xee, 0xee, 0xee, 7, 7, 7, 7] ∧
      Copied (List.replicate 18 7) sampleRelax (List.replicate 12 0xaa) (fillWith 0xee)
        (copy (List.replicate 18 7) sampleRelax (List.replicate 12 0xaa) (fillWith 0xee)) :=
  ⟨by decide, copy_ok _ _ _ _ (by decide) sampleRelax_wellFormed (by decide) (by decide)⟩

/-- An instruction of more bytes than a word has. -/
def longWord : SectionRelax := ⟨0, [⟨0, 0, 0, 0, 0, .replace 0x6f 5 17⟩], true⟩

/-- **An edit that keeps five bytes leaves a gap.** -/
theorem copy_longWord : longWord.WellFormed 5 ∧
    (List.replicate 5 (0 : UInt8)).length = 5 - longWord.removed ∧
    ¬ ∀ p < 5, (copy (List.replicate 5 7) longWord (List.replicate 5 0) (fillWith 0)).writes.countP
      (fun run => decide (run.1 ≤ p ∧ p < run.1 + run.2)) = 1 := by
  refine ⟨⟨⟨List.pairwise_singleton _ _, by decide, ?_, List.pairwise_singleton _ _⟩,
    rfl, trivial⟩, by decide, by decide⟩
  intro e he addend hr
  rw [List.mem_singleton.mp he] at hr
  exact nomatch hr

end Qld.Elf.Arch.Shrink
