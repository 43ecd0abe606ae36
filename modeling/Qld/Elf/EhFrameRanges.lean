import Mathlib.Data.List.TakeWhile
import Qld.Elf.EhFrameSplit

/-!
# Records and their relocations

What `split_with` of `elf/read/eh_frame.rs` accepts, and what it gives.

* `WellFormed`, `Records` — a record, and the records of a section up to its end or terminator;
* `splitWith` — `split_with`; `splitFrom_iff` — the two cursors together;
* `SplitOk` — what the entries of a section are.
-/

namespace Qld.Elf.EhFrame

open Qld.Lib

variable {e : Endian} {data : List UInt8}

/-! ### Well-formed records -/

/-- A record as it stands in a section. -/
structure Shape where
  offset : ℕ
  size : ℕ
  lengthSize : ℕ
  cieOffset : Option ℕ
  deriving DecidableEq, Repr

/-- Whether an offset lies inside a record. -/
def Shape.Has (r : Shape) (o : ℕ) : Prop := r.offset ≤ o ∧ o < r.offset + r.size

/-- Where the `pc_begin` field of an FDE is. -/
def Shape.pcBegin (r : Shape) : ℕ := r.offset + r.lengthSize + 4

/-- The number in the `width` bytes from `pos` on. -/
def word (e : Endian) (data : List UInt8) (pos width : ℕ) : ℕ :=
  e.getUint ((data.drop pos).take width)

/-- The size of the length field at `pos`, and the length. -/
inductive LengthField (e : Endian) (data : List UInt8) (pos : ℕ) : ℕ → ℕ → Prop
  | short : pos + 4 ≤ data.length → word e data pos 4 ≠ 0 → word e data pos 4 ≠ U32_MAX →
      LengthField e data pos 4 (word e data pos 4)
  | long : pos + 12 ≤ data.length → word e data pos 4 = U32_MAX →
      LengthField e data pos 12 (word e data (pos + 4) 8)

/-- The CIE that the field at `pos` points to: a distance back from the field, and none for a
CIE. -/
inductive CiePointer (e : Endian) (data : List UInt8) (pos : ℕ) : Option ℕ → Prop
  | cie : word e data pos 4 = 0 → CiePointer e data pos none
  | fde : word e data pos 4 ≠ 0 → word e data pos 4 ≤ pos →
      CiePointer e data pos (some (pos - word e data pos 4))

/-- A well-formed record. -/
structure WellFormed (e : Endian) (data : List UInt8) (r : Shape) : Prop where
  length : ∃ length, LengthField e data r.offset r.lengthSize length ∧ 4 ≤ length ∧
    r.size = r.lengthSize + length
  inside : r.offset + r.size ≤ data.length
  cie : CiePointer e data (r.offset + r.lengthSize) r.cieOffset

/-- A zero length word. -/
def Terminator (e : Endian) (data : List UInt8) (pos : ℕ) : Prop :=
  pos + 4 ≤ data.length ∧ word e data pos 4 = 0

/-- The records from a position on, up to the end or a terminator. -/
inductive Records (e : Endian) (data : List UInt8) : ℕ → List Shape → Prop
  | stop {pos : ℕ} : pos = data.length ∨ Terminator e data pos → Records e data pos []
  | record {r : Shape} {rest : List Shape} : WellFormed e data r →
      Records e data (r.offset + r.size) rest → Records e data r.offset (r :: rest)

variable {pos width stop : ℕ}

theorem readUint_iff {value : ℕ} :
    readUint e data pos width = some value ↔
      pos + width ≤ data.length ∧ value = word e data pos width := by
  refine ⟨readUint_eq_some, ?_⟩
  rintro ⟨hlen, rfl⟩
  rw [readUint, getRange, if_pos ⟨Nat.le_add_right _ _, hlen⟩, Nat.add_sub_cancel_left]
  rfl

theorem parseLength_none :
    parseLength e data pos = .ok none ↔ Terminator e data pos := by
  constructor
  · intro h
    obtain ⟨length, hlength, h⟩ := bind_eq_ok.mp h
    obtain ⟨hlen, rfl⟩ := readUint_iff.mp (okOrElse_eq_ok.mp hlength)
    split at h
    · next hzero => exact ⟨hlen, hzero⟩
    split at h
    · obtain ⟨ext, -, h⟩ := bind_eq_ok.mp h
      exact absurd (Except.ok.inj h) (Option.some_ne_none _)
    · exact absurd (Except.ok.inj h) (Option.some_ne_none _)
  · intro h
    refine bind_eq_ok.mpr ⟨_, okOrElse_eq_ok.mpr (readUint_iff.mpr ⟨h.1, rfl⟩), ?_⟩
    rw [if_pos h.2]
    rfl

theorem parseLength_some {length : ℕ} :
    parseLength e data pos = .ok (some (width, length)) ↔ LengthField e data pos width length := by
  constructor
  · intro h
    obtain ⟨first, hfirst, h⟩ := bind_eq_ok.mp h
    obtain ⟨hlen, rfl⟩ := readUint_iff.mp (okOrElse_eq_ok.mp hfirst)
    split at h
    · exact absurd (Except.ok.inj h).symm (Option.some_ne_none _)
    split at h
    · next hmax =>
      obtain ⟨ext, hext, h⟩ := bind_eq_ok.mp h
      obtain ⟨hlen', rfl⟩ := readUint_iff.mp (okOrElse_eq_ok.mp hext)
      obtain ⟨rfl, rfl⟩ := Prod.mk.inj (Option.some.inj (Except.ok.inj h))
      exact .long (by omega) hmax
    · next hzero hmax =>
      obtain ⟨rfl, rfl⟩ := Prod.mk.inj (Option.some.inj (Except.ok.inj h))
      exact .short hlen hzero hmax
  · intro h
    cases h with
    | short hlen hzero hmax =>
      refine bind_eq_ok.mpr ⟨_, okOrElse_eq_ok.mpr (readUint_iff.mpr ⟨hlen, rfl⟩), ?_⟩
      rw [if_neg hzero, if_neg hmax]
      rfl
    | long hlen hmax =>
      refine bind_eq_ok.mpr ⟨_, okOrElse_eq_ok.mpr (readUint_iff.mpr ⟨by omega, rfl⟩), ?_⟩
      rw [if_neg (by rw [hmax]; decide), if_pos hmax]
      exact bind_eq_ok.mpr ⟨_, okOrElse_eq_ok.mpr (readUint_iff.mpr ⟨by omega, rfl⟩), rfl⟩

theorem parseKind_iff {cie : Option ℕ} :
    parseKind pos (word e data pos 4) = .ok cie ↔ CiePointer e data pos cie := by
  constructor
  · intro h
    rw [parseKind] at h
    split at h
    · next hzero =>
      obtain rfl := Except.ok.inj h
      exact .cie hzero
    split at h
    · next hzero hle =>
      obtain rfl := Except.ok.inj h
      exact .fde hzero hle
    · exact absurd h (by simp)
  · intro h
    cases h with
    | cie hzero => rw [parseKind, if_pos hzero]
    | fde hzero hle => rw [parseKind, if_neg hzero, if_pos hle]

theorem parseOne_none : parseOne e data pos = .ok none ↔ Terminator e data pos := by
  rw [← parseLength_none, parseOne, bind_eq_ok]
  constructor
  · rintro ⟨parsed, hparsed, h⟩
    cases parsed with
    | none => exact hparsed
    | some x =>
      rw [ite_error_eq_ok, ite_error_eq_ok, ite_error_eq_ok] at h
      obtain ⟨id, -, h⟩ := bind_eq_ok.mp h.2.2.2
      obtain ⟨kind, -, h⟩ := bind_eq_ok.mp h
      exact absurd (Except.ok.inj h) (Option.some_ne_none _)
  · intro h
    exact ⟨_, h, rfl⟩

/-- **A record is parsed when it is well formed.** -/
theorem parseOne_some (hdata : data.length < 2 ^ 64) {size : ℕ} {cie : Option ℕ} :
    parseOne e data pos = .ok (some (size, width, cie)) ↔
      WellFormed e data ⟨pos, size, width, cie⟩ := by
  rw [parseOne, bind_eq_ok]
  constructor
  · rintro ⟨parsed, hparsed, h⟩
    cases parsed with
    | none => exact absurd (Except.ok.inj h).symm (Option.some_ne_none _)
    | some x =>
      obtain ⟨width', length⟩ := x
      rw [ite_error_eq_ok, ite_error_eq_ok, ite_error_eq_ok] at h
      obtain ⟨hshort, -, hlen, h⟩ := h
      obtain ⟨id, hid, h⟩ := bind_eq_ok.mp h
      obtain ⟨-, rfl⟩ := readUint_iff.mp (okOrElse_eq_ok.mp hid)
      obtain ⟨kind, hkind, h⟩ := bind_eq_ok.mp h
      obtain ⟨rfl, hrest⟩ := Prod.mk.inj (Option.some.inj (Except.ok.inj h))
      obtain ⟨rfl, rfl⟩ := Prod.mk.inj hrest
      refine ⟨⟨length, parseLength_some.mp hparsed, Nat.le_of_not_lt hshort, rfl⟩, ?_,
        parseKind_iff.mp hkind⟩
      show pos + (width' + length) ≤ data.length
      omega
  · rintro ⟨⟨length, hlength, hfour, hsize⟩, hinside, hcie⟩
    dsimp only at hlength hsize hinside hcie
    subst hsize
    refine ⟨_, parseLength_some.mpr hlength, ?_⟩
    rw [ite_error_eq_ok, ite_error_eq_ok, ite_error_eq_ok]
    refine ⟨Nat.not_lt.mpr hfour, by omega, by omega, ?_⟩
    refine bind_eq_ok.mpr ⟨_, okOrElse_eq_ok.mpr (readUint_iff.mpr ⟨by omega, rfl⟩), ?_⟩
    exact bind_eq_ok.mpr ⟨_, parseKind_iff.mpr hcie, rfl⟩

theorem WellFormed.bounds {r : Shape} (h : WellFormed e data r) :
    r.lengthSize + 4 ≤ r.size ∧ 0 < r.size := by
  obtain ⟨length, -, hfour, hsize⟩ := h.length
  omega

variable {shapes : List Shape}

/-- The records from a position on start there or later. -/
theorem Records.start_le (h : Records e data pos shapes) :
    ∀ r ∈ shapes, pos ≤ r.offset := by
  induction h with
  | stop _ => exact fun r hr => absurd hr List.not_mem_nil
  | record hr _ ih =>
    refine List.forall_mem_cons.mpr ⟨le_rfl, fun q hq => ?_⟩
    exact (Nat.le_add_right _ _).trans (ih q hq)

/-! ### Both cursors -/

/-- The offsets of relocations with their indices, from an index on. -/
def indexed (next : ℕ) (offsets : List ℕ) : List (ℕ × ℕ) :=
  (offsets.zipIdx next).map fun o => (o.2, o.1)

theorem indexed_cons (next o : ℕ) (offsets : List ℕ) :
    indexed next (o :: offsets) = (next, o) :: indexed (next + 1) offsets := rfl

/-- The offsets that a record takes: those before its end. -/
def before (stop : ℕ) (offsets : List ℕ) : List ℕ := offsets.takeWhile fun o => o < stop

/-- The offsets that a record leaves. -/
def behind (stop : ℕ) (offsets : List ℕ) : List ℕ := offsets.dropWhile fun o => o < stop

theorem before_append_behind (stop : ℕ) (offsets : List ℕ) :
    before stop offsets ++ behind stop offsets = offsets := List.takeWhile_append_dropWhile

variable {offsets : List ℕ}

theorem lt_of_mem_before {o : ℕ} (h : o ∈ before stop offsets) :
    o < stop := by simpa using List.mem_takeWhile_imp h

/-- The index of the first relocation at the field that names the function. -/
def firstAt (pcBegin : Option ℕ) (next : ℕ) (offsets : List ℕ) : Option ℕ :=
  (offsets.findIdx? fun o => pcBegin = some o).map (next + ·)

/-- **What a record takes.** -/
theorem takeRelocs_iff {start : ℕ} {pcBegin : Option ℕ} {cursor : RelocCursor} (offsets : List ℕ) :
    ∀ {last next : ℕ} {found : Option ℕ},
    takeRelocs start stop pcBegin (indexed next offsets) last next found = .ok cursor ↔
      (last :: before stop offsets).IsChain (· ≤ ·) ∧ (∀ o ∈ before stop offsets, start ≤ o) ∧
        cursor = ⟨indexed (next + (before stop offsets).length) (behind stop offsets),
          (before stop offsets).getLastD last, next + (before stop offsets).length,
          found.or (firstAt pcBegin next (before stop offsets))⟩ := by
  induction offsets with
  | nil =>
    intro last next found
    simp [indexed, takeRelocs, before, behind, firstAt, eq_comm]
  | cons o offsets ih =>
    intro last next found
    rw [indexed_cons, takeRelocs]
    by_cases hstop : stop ≤ o
    · have hnot : ¬ o < stop := Nat.not_lt.mpr hstop
      simp [before, behind, firstAt, hstop, hnot, indexed_cons, eq_comm]
    have hlt : o < stop := Nat.lt_of_not_le hstop
    have hbefore : before stop (o :: offsets) = o :: before stop offsets := by
      simp [before, hlt]
    have hbehind : behind stop (o :: offsets) = behind stop offsets := by
      simp [behind, hlt]
    rw [if_neg hstop, hbefore, hbehind, ite_error_eq_ok, ite_error_eq_ok, ih,
      List.isChain_cons_cons, List.forall_mem_cons, List.getLastD_cons, List.length_cons]
    have hfound : (if pcBegin = some o ∧ found = none then some next else found).or
        (firstAt pcBegin (next + 1) (before stop offsets)) =
          found.or (firstAt pcBegin next (o :: before stop offsets)) := by
      cases found with
      | some index => simp
      | none =>
        rw [firstAt, firstAt, List.findIdx?_cons]
        by_cases hpc : pcBegin = some o
        · simp [hpc]
        · simp [hpc, Function.comp_def, Nat.add_assoc, Nat.add_comm 1]
    have hshift : next + 1 + (before stop offsets).length =
        next + ((before stop offsets).length + 1) := by omega
    rw [hfound, hshift]
    constructor
    · rintro ⟨hlast, hstart, hchain, hall, rfl⟩
      exact ⟨⟨Nat.le_of_not_lt hlast, hchain⟩, ⟨Nat.le_of_not_lt hstart, hall⟩, rfl⟩
    · rintro ⟨⟨hlast, hchain⟩, ⟨hstart, hall⟩, rfl⟩
      exact ⟨Nat.not_lt.mpr hlast, Nat.not_lt.mpr hstart, hchain, hall, rfl⟩

/-- The entries of records that take their relocations one after another: from the last offset and
the next index, and what remains. -/
def Run : List Shape → List ℕ → ℕ → ℕ → List Entry → List (ℕ × ℕ) → Prop
  | [], offsets, _, next, entries, rest => entries = [] ∧ rest = indexed next offsets
  | r :: shapes, offsets, last, next, entries, rest =>
    (last :: before (r.offset + r.size) offsets).IsChain (· ≤ ·) ∧
      (∀ o ∈ before (r.offset + r.size) offsets, r.offset ≤ o) ∧
      ∃ more, entries = ⟨r.offset, r.size, r.cieOffset,
          (next, next + (before (r.offset + r.size) offsets).length),
          firstAt (r.cieOffset.map fun _ => r.pcBegin) next
            (before (r.offset + r.size) offsets)⟩ :: more ∧
        Run shapes (behind (r.offset + r.size) offsets)
          ((before (r.offset + r.size) offsets).getLastD last)
          (next + (before (r.offset + r.size) offsets).length) more rest

theorem records_at_end (h : Records e data data.length shapes) :
    shapes = [] := by
  generalize hpos : data.length = pos at h
  cases h with
  | stop _ => rfl
  | record hr _ =>
    have := hr.inside
    have := hr.bounds
    omega

/-- **The records and their relocations, from a position on.** -/
theorem splitFrom_iff (hdata : data.length < 2 ^ 64) {rest : List (ℕ × ℕ)} (fuel : ℕ) :
    ∀ {pos last next : ℕ} {offsets : List ℕ} {entries : List Entry},
      pos ≤ data.length → data.length ≤ pos + fuel →
      (splitFrom e data fuel pos (indexed next offsets) last next = .ok (entries, rest) ↔
        ∃ shapes, Records e data pos shapes ∧ Run shapes offsets last next entries rest) := by
  have hatEnd : ∀ {last next : ℕ} {offsets : List ℕ} {entries : List Entry},
      (.ok ([], indexed next offsets) : Except String _) = .ok (entries, rest) ↔
        ∃ shapes, Records e data data.length shapes ∧
          Run shapes offsets last next entries rest := by
    intro last next offsets entries
    constructor
    · intro h
      obtain ⟨rfl, rfl⟩ := Prod.mk.inj (Except.ok.inj h)
      exact ⟨[], .stop (.inl rfl), rfl, rfl⟩
    · rintro ⟨shapes, hshapes, hrun⟩
      rw [records_at_end hshapes] at hrun
      rw [hrun.1, hrun.2]
  induction fuel with
  | zero =>
    intro pos last next offsets entries hpos hfuel
    obtain rfl : pos = data.length := by omega
    exact hatEnd
  | succ fuel ih =>
    intro pos last next offsets entries hpos hfuel
    rw [splitFrom]
    split
    · obtain rfl : pos = data.length := by omega
      exact hatEnd
    next hlt =>
    rw [bind_eq_ok]
    constructor
    · rintro ⟨parsed, hparsed, h⟩
      cases parsed with
      | none =>
        obtain ⟨rfl, rfl⟩ := Prod.mk.inj (Except.ok.inj h)
        exact ⟨[], .stop (.inr (parseOne_none.mp hparsed)), rfl, rfl⟩
      | some x =>
        obtain ⟨size, width, cie⟩ := x
        have hr := (parseOne_some hdata).mp hparsed
        obtain ⟨cursor, hcursor, h⟩ := bind_eq_ok.mp h
        obtain ⟨more, hmore, h⟩ := bind_eq_ok.mp h
        obtain ⟨rfl, rfl⟩ := Prod.mk.inj (Except.ok.inj h)
        obtain ⟨hchain, hall, rfl⟩ := (takeRelocs_iff offsets).mp hcursor
        have hsize := hr.bounds.2
        obtain ⟨shapes, hshapes, hrun⟩ := (ih hr.inside (by
          show data.length ≤ pos + size + fuel
          have : 0 < size := hsize
          omega)).mp hmore
        refine ⟨⟨pos, size, width, cie⟩ :: shapes, .record hr hshapes, hchain, hall, more.1, ?_,
          hrun⟩
        rw [Option.none_or]
        rfl
    · rintro ⟨shapes, hshapes, hrun⟩
      cases hshapes with
      | stop hstop =>
        rcases hstop with rfl | hstop
        · exact absurd le_rfl hlt
        · refine ⟨none, parseOne_none.mpr hstop, ?_⟩
          rw [hrun.1, hrun.2]
          rfl
      | record hr hshapes =>
        next r shapes =>
        obtain ⟨hchain, hall, more, rfl, hrun⟩ := hrun
        have hsize := hr.bounds.2
        have hmore := (ih hr.inside (by omega)).mpr ⟨shapes, hshapes, hrun⟩
        refine ⟨some (r.size, r.lengthSize, r.cieOffset), (parseOne_some hdata).mpr hr, ?_⟩
        refine bind_eq_ok.mpr ⟨_, (takeRelocs_iff offsets).mpr ⟨hchain, hall, rfl⟩, ?_⟩
        refine bind_eq_ok.mpr ⟨_, hmore, ?_⟩
        rw [Option.none_or]
        rfl

/-- The rounds are enough: more of them change nothing. -/
theorem splitFrom_fuel (hdata : data.length < 2 ^ 64) (fuel : ℕ) : ∀ {more pos last next : ℕ}
    {relocs : List (ℕ × ℕ)}, data.length ≤ pos + fuel → fuel ≤ more →
    splitFrom e data more pos relocs last next = splitFrom e data fuel pos relocs last next := by
  induction fuel with
  | zero =>
    intro more pos last next relocs hfuel _
    cases more with
    | zero => rfl
    | succ more =>
      have hend : data.length ≤ pos := by omega
      simp only [splitFrom, if_pos hend]
  | succ fuel ih =>
    intro more pos last next relocs hfuel hmore
    cases more with
    | zero => exact absurd hmore (Nat.not_succ_le_zero _)
    | succ more =>
      rw [splitFrom, splitFrom]
      split
      · rfl
      cases hparsed : parseOne e data pos with
      | error what => rfl
      | ok parsed =>
        cases parsed with
        | none => rfl
        | some x =>
          obtain ⟨size, width, cie⟩ := x
          have hsize : 0 < size := ((parseOne_some hdata).mp hparsed).bounds.2
          have hrest : ∀ cursor : RelocCursor,
              splitFrom e data more (pos + size) cursor.rest cursor.last cursor.next =
                splitFrom e data fuel (pos + size) cursor.rest cursor.last cursor.next :=
            fun cursor => ih (by omega) (by omega)
          show (takeRelocs pos (pos + size) _ relocs last next none >>= _) =
            takeRelocs pos (pos + size) _ relocs last next none >>= _
          exact bind_congr fun cursor => by rw [hrest cursor]

/-! ### What is accepted -/

/-- The offsets that a record leaves are not before its end, if the offsets ascend. -/
theorem le_of_mem_behind (hsorted : offsets.Pairwise (· ≤ ·)) :
    ∀ o ∈ behind stop offsets, stop ≤ o := by
  induction offsets with
  | nil => exact fun o ho => absurd ho List.not_mem_nil
  | cons a offsets ih =>
    obtain ⟨ha, hsorted⟩ := List.pairwise_cons.mp hsorted
    intro o ho
    rw [behind, List.dropWhile_cons] at ho
    split at ho
    · exact ih hsorted o ho
    · next hstop =>
      have hstop : stop ≤ a := by simpa using hstop
      rcases List.mem_cons.mp ho with rfl | ho
      · exact hstop
      · exact hstop.trans (ha o ho)

theorem getLastD_le {last bound : ℕ} (l : List ℕ) (hlast : last ≤ bound)
    (h : ∀ o ∈ l, o ≤ bound) : l.getLastD last ≤ bound := by
  rw [List.getLastD_eq_getLast?]
  cases hl : l.getLast? with
  | none => exact hlast
  | some o => exact h o (List.mem_of_getLast? hl)

/-- **Every relocation is taken when the offsets ascend and each lies in a record.** -/
theorem run_iff {pos : ℕ} {shapes : List Shape} (hshapes : Records e data pos shapes) :
    ∀ {offsets : List ℕ} {last next : ℕ}, last ≤ pos →
      ((∃ entries, Run shapes offsets last next entries []) ↔
        offsets.Pairwise (· ≤ ·) ∧ ∀ o ∈ offsets, ∃ r ∈ shapes, r.Has o) := by
  induction hshapes with
  | stop _ =>
    intro offsets last next _
    constructor
    · rintro ⟨entries, -, hrest⟩
      obtain rfl : offsets = [] := by
        cases offsets with
        | nil => rfl
        | cons o offsets => exact absurd hrest (by simp [indexed_cons])
      exact ⟨List.Pairwise.nil, fun o ho => absurd ho List.not_mem_nil⟩
    · rintro ⟨-, hall⟩
      obtain rfl : offsets = [] := by
        refine List.eq_nil_iff_forall_not_mem.mpr fun o ho => ?_
        obtain ⟨r, hr, -⟩ := hall o ho
        exact absurd hr List.not_mem_nil
      exact ⟨[], rfl, rfl⟩
  | record hr hrest ih =>
    next r shapes =>
    intro offsets last next hlast
    have hcut := before_append_behind (r.offset + r.size) offsets
    have hlast' : (before (r.offset + r.size) offsets).getLastD last ≤ r.offset + r.size :=
      getLastD_le _ (by omega) fun o ho => (lt_of_mem_before ho).le
    have ih := @ih (behind (r.offset + r.size) offsets) _
      (next + (before (r.offset + r.size) offsets).length) hlast'
    constructor
    · rintro ⟨entries, hchain, hstart, more, -, hrun⟩
      obtain ⟨hsorted, hin⟩ := ih.mp ⟨more, hrun⟩
      have hlater : ∀ o ∈ behind (r.offset + r.size) offsets, r.offset + r.size ≤ o := by
        intro o ho
        obtain ⟨q, hq, hhas⟩ := hin o ho
        exact (hrest.start_le q hq).trans hhas.1
      refine ⟨?_, ?_⟩
      · rw [← hcut]
        refine List.pairwise_append.mpr
          ⟨(List.pairwise_cons.mp (List.isChain_iff_pairwise.mp hchain)).2, hsorted, ?_⟩
        intro a ha b hb
        exact (lt_of_mem_before ha).le.trans (hlater b hb)
      · intro o ho
        rw [← hcut] at ho
        rcases List.mem_append.mp ho with ho | ho
        · exact ⟨r, List.mem_cons_self, hstart o ho, lt_of_mem_before ho⟩
        · obtain ⟨q, hq, hhas⟩ := hin o ho
          exact ⟨q, List.mem_cons_of_mem _ hq, hhas⟩
    · rintro ⟨hsorted, hall⟩
      have hparts := hsorted
      rw [← hcut] at hparts
      obtain ⟨hbefore, hbehind, -⟩ := List.pairwise_append.mp hparts
      -- A record that is not this one starts behind it.
      have hstart : ∀ o ∈ before (r.offset + r.size) offsets, r.offset ≤ o := by
        intro o ho
        obtain ⟨q, hq, hhas⟩ := hall o (hcut ▸ List.mem_append_left _ ho)
        rcases List.mem_cons.mp hq with rfl | hq
        · exact hhas.1
        · have := hrest.start_le q hq
          have := hhas.1
          omega
      have hin : ∀ o ∈ behind (r.offset + r.size) offsets, ∃ q ∈ shapes, q.Has o := by
        intro o ho
        obtain ⟨q, hq, hhas⟩ := hall o (hcut ▸ List.mem_append_right _ ho)
        rcases List.mem_cons.mp hq with rfl | hq
        · exact absurd hhas.2 (Nat.not_lt.mpr (le_of_mem_behind hsorted o ho))
        · exact ⟨q, hq, hhas⟩
      obtain ⟨more, hrun⟩ := ih.mpr ⟨hbehind, hin⟩
      refine ⟨_, ?_, hstart, more, rfl, hrun⟩
      refine List.isChain_iff_pairwise.mpr (List.pairwise_cons.mpr ⟨fun o ho => ?_, hbefore⟩)
      exact hlast.trans (hstart o ho)

/-! ### What is given -/

/-- The entry of a record: its range holds the relocations inside the record, and an FDE that
reaches past its `pc_begin` field has the first relocation there. -/
structure EntryOf (offsets : List ℕ) (r : Shape) (x : Entry) : Prop where
  record : x.offset = r.offset ∧ x.size = r.size ∧ x.cieOffset = r.cieOffset
  range : x.relocs.1 ≤ x.relocs.2
  relocs : ∀ k o, offsets[k]? = some o → (x.relocs.1 ≤ k ∧ k < x.relocs.2 ↔ r.Has o)
  pcBegin : x.cieOffset ≠ none → x.pcBegin =
    if r.pcBegin < r.offset + r.size then offsets.findIdx? (· = r.pcBegin) else none

theorem findIdx?_eq_none {l : List ℕ} {a : ℕ} (h : ∀ o ∈ l, o ≠ a) :
    l.findIdx? (fun o => decide (o = a)) = none :=
  List.findIdx?_eq_none_iff.mpr fun o ho => decide_eq_false (h o ho)

/-- The first relocation at a field is the record's own, if it is inside the record. -/
theorem firstAt_eq {done taken later : List ℕ} {r : Shape} (hdone : ∀ o ∈ done, o < r.offset)
    (htaken : ∀ o ∈ taken, o < r.offset + r.size) (hlater : ∀ o ∈ later, r.offset + r.size ≤ o) :
    firstAt (some r.pcBegin) done.length taken =
      if r.pcBegin < r.offset + r.size then
        (done ++ (taken ++ later)).findIdx? (· = r.pcBegin) else none := by
  have hpc : r.offset ≤ r.pcBegin := by
    rw [Shape.pcBegin]
    omega
  have hfirst : firstAt (some r.pcBegin) done.length taken =
      (taken.findIdx? (· = r.pcBegin)).map (done.length + ·) := by
    rw [firstAt]
    congr 2
    funext o
    exact decide_eq_decide.mpr (by rw [Option.some.injEq, eq_comm])
  rw [hfirst]
  split
  · next hlt =>
    have hnone : later.findIdx? (fun o => decide (o = r.pcBegin)) = none :=
      findIdx?_eq_none fun o ho => by
        have := hlater o ho
        omega
    have hnone' : done.findIdx? (fun o => decide (o = r.pcBegin)) = none :=
      findIdx?_eq_none fun o ho => by
        have := hdone o ho
        omega
    rw [List.findIdx?_append, List.findIdx?_append, hnone, hnone', Option.none_or, Option.map_none,
      Option.or_none]
    congr 1
    funext k
    exact Nat.add_comm _ _
  · next hge =>
    rw [findIdx?_eq_none fun o ho => by
      have := htaken o ho
      omega]
    rfl

/-- **The entries of records that take every relocation.**  The relocations `done` went to
the records before. -/
theorem run_entries {pos : ℕ} {shapes : List Shape} (hshapes : Records e data pos shapes) :
    ∀ {done offsets : List ℕ} {last : ℕ} {entries : List Entry}, last ≤ pos →
      (∀ o ∈ done, o < pos) → Run shapes offsets last done.length entries [] →
      List.Forall₂ (EntryOf (done ++ offsets)) shapes entries ∧
        Tiles done.length (done ++ offsets).length
          (entries.map fun x => (x.relocs.1, x.relocs.2 - x.relocs.1)) := by
  induction hshapes with
  | stop _ =>
    intro done offsets last entries _ _ hrun
    obtain ⟨rfl, hrest⟩ := hrun
    obtain rfl : offsets = [] := by
      cases offsets with
      | nil => rfl
      | cons o offsets => exact absurd hrest (by simp [indexed_cons])
    exact ⟨List.Forall₂.nil, by rw [List.append_nil]; rfl⟩
  | record hr hrest ih =>
    next r shapes =>
    intro done offsets last entries hlast hdone hrun
    obtain ⟨hchain, hstart, more, rfl, hrun⟩ := hrun
    have hlast' : (before (r.offset + r.size) offsets).getLastD last ≤ r.offset + r.size :=
      getLastD_le _ (by omega) fun o ho => (lt_of_mem_before ho).le
    have hcut := before_append_behind (r.offset + r.size) offsets
    have htaken : ∀ o ∈ before (r.offset + r.size) offsets, o < r.offset + r.size :=
      fun o ho => lt_of_mem_before ho
    have hlater : ∀ o ∈ behind (r.offset + r.size) offsets, r.offset + r.size ≤ o := by
      intro o ho
      obtain ⟨q, hq, hhas⟩ := ((run_iff hrest hlast').mp ⟨more, hrun⟩).2 o ho
      exact (hrest.start_le q hq).trans hhas.1
    generalize before (r.offset + r.size) offsets = taken at hcut hrun htaken hstart hlast' ⊢
    generalize behind (r.offset + r.size) offsets = later at hcut hrun hlater
    subst hcut
    rw [← List.length_append] at hrun ⊢
    obtain ⟨hentries, htiles⟩ := @ih (done ++ taken) _ _ _ hlast' (by
      intro o ho
      rcases List.mem_append.mp ho with ho | ho
      · exact (hdone o ho).trans_le (Nat.le_add_right _ _)
      · exact htaken o ho) hrun
    rw [List.append_assoc] at hentries htiles
    refine ⟨List.Forall₂.cons ⟨⟨rfl, rfl, rfl⟩, ?_, ?_, ?_⟩ hentries, ?_⟩
    · show done.length ≤ (done ++ taken).length
      rw [List.length_append]
      exact Nat.le_add_right _ _
    · intro k o ho
      show done.length ≤ k ∧ k < (done ++ taken).length ↔ r.offset ≤ o ∧ o < r.offset + r.size
      rw [List.length_append]
      by_cases hk : k < done.length
      · rw [List.getElem?_append_left hk] at ho
        have := hdone o (List.mem_of_getElem? ho)
        omega
      rw [List.getElem?_append_right (Nat.le_of_not_lt hk)] at ho
      by_cases hk' : k - done.length < taken.length
      · rw [List.getElem?_append_left hk'] at ho
        have := hstart o (List.mem_of_getElem? ho)
        have := htaken o (List.mem_of_getElem? ho)
        omega
      · rw [List.getElem?_append_right (Nat.le_of_not_lt hk')] at ho
        have := hlater o (List.mem_of_getElem? ho)
        omega
    · intro hcie
      obtain ⟨cie, hcie⟩ := Option.ne_none_iff_exists'.mp hcie
      change r.cieOffset = some cie at hcie
      show firstAt (r.cieOffset.map fun _ => r.pcBegin) done.length taken = _
      rw [hcie]
      exact firstAt_eq hdone htaken hlater
    · rw [List.map_cons]
      refine ⟨rfl, ?_⟩
      show Tiles (done.length + ((done ++ taken).length - done.length)) _ _
      rw [Nat.add_sub_cancel' (by rw [List.length_append]; exact Nat.le_add_right _ _)]
      exact htiles

/-! ### The section -/

/-- `split_with`: the entries of a section, for any sequence of relocation offsets. -/
def splitWith (e : Endian) (data : List UInt8) (offsets : List ℕ) : Except String (List Entry) := do
  let split ← splitFrom e data data.length 0 (indexed 0 offsets) 0 0
  if split.2 ≠ [] then .error ".eh_frame relocation (outside any record)"
  else return split.1

/-- What splitting a section gives. -/
structure SplitOk (e : Endian) (data : List UInt8) (offsets : List ℕ) (shapes : List Shape)
    (entries : List Entry) : Prop where
  /-- The records follow one another from the start to the end or a terminator. -/
  records : Records e data 0 shapes
  consecutive : ∃ stop, (stop = data.length ∨ Terminator e data stop) ∧
    Tiles 0 stop (shapes.map fun r => (r.offset, r.size)) ∧
    (shapes.map fun r => (data.drop r.offset).take r.size).flatten = data.take stop
  /-- The ranges of relocations follow one another over all indices. -/
  ranges : Tiles 0 offsets.length (entries.map fun x => (x.relocs.1, x.relocs.2 - x.relocs.1))
  entries : List.Forall₂ (EntryOf offsets) shapes entries

theorem Records.consecutive (h : Records e data pos shapes) :
    ∃ stop, (stop = data.length ∨ Terminator e data stop) ∧ pos ≤ stop ∧
      Tiles pos stop (shapes.map fun r => (r.offset, r.size)) ∧
      (shapes.map fun r => (data.drop r.offset).take r.size).flatten =
        (data.drop pos).take (stop - pos) := by
  induction h with
  | stop h => exact ⟨_, h, le_rfl, rfl, by rw [Nat.sub_self]; rfl⟩
  | record hr hrest ih =>
    next r shapes =>
    obtain ⟨stop, hstop, hle, htiles, hbytes⟩ := ih
    refine ⟨stop, hstop, (Nat.le_add_right _ _).trans hle, ⟨rfl, htiles⟩, ?_⟩
    rw [List.map_cons, List.flatten_cons, hbytes, ← List.drop_drop, ← List.take_add]
    congr 1
    omega

theorem splitWith_iff_run (hdata : data.length < 2 ^ 64) {entries : List Entry} :
    splitWith e data offsets = .ok entries ↔
      ∃ shapes, Records e data 0 shapes ∧ Run shapes offsets 0 0 entries [] := by
  rw [splitWith, bind_eq_ok, ← splitFrom_iff hdata data.length (Nat.zero_le _) (by omega)]
  constructor
  · rintro ⟨⟨found, rest⟩, hsplit, h⟩
    rw [ite_error_eq_ok, not_not] at h
    obtain ⟨rfl, h⟩ := h
    have h : found = entries := Except.ok.inj h
    rw [hsplit, h]
  · intro h
    exact ⟨_, h, if_neg (not_not.mpr rfl)⟩

/-- **What `split_with` accepts, and what it gives (proved).** -/
theorem splitWith_iff (e : Endian) (data : List UInt8) (hdata : data.length < 2 ^ 64)
    (offsets : List ℕ) :
    (∀ more last next relocs, data.length ≤ more →
      splitFrom e data more 0 relocs last next =
        splitFrom e data data.length 0 relocs last next) ∧
    ((∃ entries, splitWith e data offsets = .ok entries) ↔
      ∃ shapes, Records e data 0 shapes ∧ offsets.Pairwise (· ≤ ·) ∧
        ∀ o ∈ offsets, ∃ r ∈ shapes, r.Has o) ∧
    ∀ entries, splitWith e data offsets = .ok entries →
      ∃ shapes, SplitOk e data offsets shapes entries := by
  refine ⟨fun more last next relocs hmore => splitFrom_fuel hdata _ (by omega) hmore, ?_, ?_⟩
  · constructor
    · rintro ⟨entries, h⟩
      obtain ⟨shapes, hshapes, hrun⟩ := (splitWith_iff_run hdata).mp h
      exact ⟨shapes, hshapes, (run_iff hshapes le_rfl).mp ⟨entries, hrun⟩⟩
    · rintro ⟨shapes, hshapes, hoffsets⟩
      obtain ⟨entries, hrun⟩ := (@run_iff _ _ _ _ hshapes _ _ 0 le_rfl).mpr hoffsets
      exact ⟨entries, (splitWith_iff_run hdata).mpr ⟨shapes, hshapes, hrun⟩⟩
  · intro entries h
    obtain ⟨shapes, hshapes, hrun⟩ := (splitWith_iff_run hdata).mp h
    obtain ⟨hentries, htiles⟩ := @run_entries _ _ _ _ hshapes [] _ _ _ le_rfl
      (fun o ho => absurd ho List.not_mem_nil) hrun
    obtain ⟨stop, hstop, -, hrecords, hbytes⟩ := hshapes.consecutive
    exact ⟨shapes, hshapes, ⟨stop, hstop, hrecords, hbytes⟩, htiles, hentries⟩

/-- A CIE and an FDE. -/
def cieFde : List UInt8 :=
  [4, 0, 0, 0, 0, 0, 0, 0, 8, 0, 0, 0, 12, 0, 0, 0, 0, 0, 0, 0]

theorem cieFde_split : splitWith .little cieFde [2, 16, 16] =
      .ok [⟨0, 8, none, (0, 1), none⟩, ⟨8, 12, some 0, (1, 3), some 1⟩] ∧
    ∃ shapes, SplitOk .little cieFde [2, 16, 16] shapes
      [⟨0, 8, none, (0, 1), none⟩, ⟨8, 12, some 0, (1, 3), some 1⟩] := by
  have hsplit : splitWith .little cieFde [2, 16, 16] =
      .ok [⟨0, 8, none, (0, 1), none⟩, ⟨8, 12, some 0, (1, 3), some 1⟩] := by decide +kernel
  exact ⟨hsplit, (splitWith_iff .little cieFde (by decide) [2, 16, 16]).2.2 _ hsplit⟩

/-- A CIE, an FDE that ends at its `pc_begin` field, and a CIE. -/
def tightFde : List UInt8 :=
  [4, 0, 0, 0, 0, 0, 0, 0, 4, 0, 0, 0, 12, 0, 0, 0, 4, 0, 0, 0, 0, 0, 0, 0]

/-- The relocation where the field of the FDE would be is one of the next record. -/
theorem tightFde_pcBegin : ¬ ∀ entries, splitWith .little tightFde [16] = .ok entries →
    ∀ x ∈ entries, ∀ width,
      parseOne .little tightFde x.offset = .ok (some (x.size, width, x.cieOffset)) →
      x.cieOffset ≠ none → x.pcBegin = [16].findIdx? (· = x.offset + width + 4) := by
  intro h
  have hsplit : splitWith .little tightFde [16] =
      .ok [⟨0, 8, none, (0, 0), none⟩, ⟨8, 8, some 0, (0, 0), none⟩,
        ⟨16, 8, none, (0, 1), none⟩] := by decide +kernel
  have hfde := h _ hsplit ⟨8, 8, some 0, (0, 0), none⟩ (by simp) 4 (by decide +kernel) (by simp)
  exact absurd hfde (by decide)

end Qld.Elf.EhFrame
