import Qld.Debug.Copy

/-!
# Zstandard sequences

The loop of `execute`, from the values that its bits decode to.  Literals and matches are written in
copies of a fixed size where there is room, so that bytes past the position are written again.

* `offsetOf`, `offsetOf_spec` — the offset of a match, and the table of repeat offsets;
* `step`, `execute` — the loop, and the literals that are left;
* `replay` — the output, appended a byte at a time;
* `step_spec` — one sequence writes what it says;
* `execute_spec` — the loop writes what the sequences say, or reports an error when they
  say nothing or too much for the buffer.
-/

namespace Qld.Debug.Zstd

open Qld.Lib Qld.Debug.Copy

def BAD : String := "zstd sequences section"

def TOO_LARGE : String := "zstd data (larger than the declared size)"

/-- The values of a sequence. -/
structure Sequence where
  offsetValue : ℕ
  matchLen : ℕ
  litLen : ℕ
  deriving DecidableEq, Repr

/-- The repeat offsets, the latest first. -/
abbrev Repeats := ℕ × ℕ × ℕ

/-- The offset of a match, and the repeat offsets after it. -/
def offsetOf (repeats : Repeats) (offsetValue litLen : ℕ) : Option (ℕ × Repeats) :=
  match repeats with
  | (r0, r1, r2) =>
    if 3 < offsetValue then some (offsetValue - 3, offsetValue - 3, r0, r1)
    else
      match wrappingSub offsetValue (if litLen ≠ 0 then 1 else 0) with
      | 0 => some (r0, r0, r1, r2)
      | 1 => some (r1, r1, r0, r2)
      | 2 => some (r2, r2, r0, r1)
      | _ =>
        let offset := wrappingSub r0 1
        if offset = 0 then none else some (offset, offset, r0, r1)

/-- The repeat offsets as a sequence. -/
def Repeats.offsets (repeats : Repeats) : List ℕ := [repeats.1, repeats.2.1, repeats.2.2]

/-- **The repeat offsets.**  One that is used again comes first and the others keep their order; a new
one, or the latest less one, pushes the oldest out. -/
theorem offsetOf_spec {r0 r1 r2 offsetValue litLen offset : ℕ} {repeats : Repeats}
    (hvalue : 0 < offsetValue)
    (h : offsetOf (r0, r1, r2) offsetValue litLen = some (offset, repeats)) :
    (∃ i, i + 1 = offsetValue + (if litLen = 0 then 1 else 0) ∧ [r0, r1, r2][i]? = some offset ∧
      repeats.offsets = offset :: [r0, r1, r2].eraseIdx i) ∨
    (offset + 3 = offsetValue ∨ offsetValue = 3 ∧ litLen = 0 ∧ offset = wrappingSub r0 1) ∧
      0 < offset ∧ repeats.offsets = [offset, r0, r1] := by
  rw [offsetOf] at h
  split at h
  · next hnew =>
    obtain ⟨rfl, rfl⟩ := Prod.mk.inj (Option.some.inj h)
    exact .inr ⟨.inl (by omega), by omega, rfl⟩
  next hrepeat =>
  have hindex : wrappingSub offsetValue (if litLen ≠ 0 then 1 else 0) + 1 =
      offsetValue + (if litLen = 0 then 1 else 0) := by
    rw [wrappingSub]
    split_ifs <;> omega
  split at h
  · next hzero =>
    obtain ⟨rfl, rfl⟩ := Prod.mk.inj (Option.some.inj h)
    exact .inl ⟨0, by rw [← hindex, hzero], rfl, rfl⟩
  · next hone =>
    obtain ⟨rfl, rfl⟩ := Prod.mk.inj (Option.some.inj h)
    exact .inl ⟨1, by rw [← hindex, hone], rfl, rfl⟩
  · next htwo =>
    obtain ⟨rfl, rfl⟩ := Prod.mk.inj (Option.some.inj h)
    exact .inl ⟨2, by rw [← hindex, htwo], rfl, rfl⟩
  · next hzero hone htwo =>
    have hlast : offsetValue = 3 ∧ litLen = 0 := by
      rw [imp_false] at hzero hone htwo
      by_cases hlit : litLen = 0
      · rw [if_pos hlit] at hindex
        omega
      · rw [if_neg hlit] at hindex
        omega
    obtain ⟨hpos, h⟩ := Option.ite_none_left_eq_some.mp h
    obtain ⟨rfl, rfl⟩ := Prod.mk.inj (Option.some.inj h)
    exact .inr ⟨.inr ⟨hlast.1, hlast.2, rfl⟩, Nat.pos_of_ne_zero hpos, rfl⟩

/-- Copies literals, sixteen bytes for a few of them when both buffers have room. -/
def copyRun (literals out : List UInt8) (lit litLen o : ℕ) : Outcome String (List UInt8) :=
  match get out o (wrappingAdd o 16), get literals lit (wrappingAdd lit 16),
    decide (litLen ≤ 16) with
  | some _, some src, true => .ok (overwrite out o src)
  | _, _, _ => do
    let _ ← Outcome.okOr (get out o (o + litLen)) TOO_LARGE
    return overwrite out o (← Outcome.okOr (get literals lit (lit + litLen)) BAD)

def copyLiterals (literals out : List UInt8) (o : ℕ) : Option (ℕ × List UInt8) := do
  let stop ← checkedAdd o literals.length
  let _ ← get out o stop
  return (stop, overwrite out o literals)

/-- The buffer, the position in it and in the literals, and the repeat offsets. -/
structure Exec where
  out : List UInt8
  o : ℕ
  lit : ℕ
  repeats : Repeats
  deriving DecidableEq, Repr

section Run

variable (literals : List UInt8) (litCount frameStart : ℕ)

/-- Executes a sequence. -/
def step (s : Exec) (seq : Sequence) : Outcome String Exec := do
  let (offset, repeats) ← Outcome.okOr (offsetOf s.repeats seq.offsetValue seq.litLen)
    "zstd offset (zero)"
  let litEnd ← Outcome.okOr (checkedAdd s.lit seq.litLen) BAD
  if litCount < litEnd then .fail "zstd sequence (not enough literals)"
  else
    let oEnd ← Outcome.okOr (checkedAdd s.o seq.litLen) TOO_LARGE
    let out ← copyRun literals s.out s.lit seq.litLen s.o
    if wrappingSub oEnd frameStart < offset then
      .fail "zstd offset (before the start of the frame)"
    else
      let (o, out) ← Outcome.mapErr Empty.elim (copyMatch out oEnd offset seq.matchLen)
      return ⟨out, ← Outcome.okOr o TOO_LARGE, litEnd, repeats⟩

/-- Executes all sequences, and copies the literals that are left.  The position after them, the
buffer and the repeat offsets. -/
def execute (seqs : List Sequence) (s : Exec) : Outcome String (ℕ × List UInt8 × Repeats) := do
  let s ← seqs.foldlM (step literals litCount frameStart) s
  let (o, out) ← Outcome.okOr
    (copyLiterals ((get literals s.lit litCount).getD []) s.out s.o) TOO_LARGE
  return (o, out, s.repeats)

end Run

/-! ### A byte at a time -/

/-- Appends a match a byte at a time. -/
def extend (out : List UInt8) (offset : ℕ) : ℕ → List UInt8
  | 0 => out
  | n + 1 =>
    let out := extend out offset n
    out ++ [out.getD (out.length - offset) 0]

section Replay

variable (size frameStart : ℕ)

/-- The output, the literals that are left and the repeat offsets, after a sequence. -/
def replayStep (s : List UInt8 × List UInt8 × Repeats) (seq : Sequence) :
    Option (List UInt8 × List UInt8 × Repeats) := do
  let (offset, repeats) ← offsetOf s.2.2 seq.offsetValue seq.litLen
  let out := s.1 ++ s.2.1.take seq.litLen
  if s.2.1.length < seq.litLen ∨ offset = 0 ∨ out.length - frameStart < offset ∨
    size < out.length + seq.matchLen then none
  else some (extend out offset seq.matchLen, s.2.1.drop seq.litLen, repeats)

/-- The output of all sequences and the literals that are left, if it has at most `size` bytes. -/
def replay (seqs : List Sequence) (s : List UInt8 × List UInt8 × Repeats) :
    Option (List UInt8 × Repeats) := do
  let s ← seqs.foldlM (replayStep size frameStart) s
  if size < (s.1 ++ s.2.1).length then none else some (s.1 ++ s.2.1, s.2.2)

end Replay

@[simp] theorem length_extend (out : List UInt8) (offset n : ℕ) :
    (extend out offset n).length = out.length + n := by
  induction n with
  | zero => rfl
  | succ n ih => rw [extend, List.length_append, ih, List.length_singleton, Nat.add_assoc]

theorem take_extend (out : List UInt8) (offset : ℕ) {m n : ℕ} (h : m ≤ n) :
    (extend out offset n).take (out.length + m) = extend out offset m := by
  induction n, h using Nat.le_induction with
  | base => rw [← length_extend out offset m, List.take_length]
  | succ n h ih =>
    rw [extend, List.take_append_of_le_length (by rw [length_extend]; omega), ih]

/-- **The copy in place extends what is before it.** -/
theorem take_byteCopy {out : List UInt8} {o offset n : ℕ} (hpos : 1 ≤ offset) (hsrc : offset ≤ o)
    (hfits : o + n ≤ out.length) :
    (byteCopy out o offset n).take (o + n) = extend (out.take o) offset n := by
  induction n with
  | zero => rfl
  | succ n ih =>
    have ih := ih (by omega)
    have hlen : (out.take o).length = o := by rw [List.length_take]; omega
    have hlt : o + n < (byteCopy out o offset n).length := by rw [length_byteCopy]; omega
    have hbyte : (byteCopy out o offset n).getD (o + n - offset) 0 =
        (extend (out.take o) offset n).getD ((extend (out.take o) offset n).length - offset) 0 := by
      rw [length_extend, hlen, ← ih, List.getD_eq_getElem?_getD, List.getD_eq_getElem?_getD,
        List.getElem?_take_of_lt (by omega)]
    rw [extend, byteCopy, ← hbyte, ← ih, ← Nat.add_assoc, List.take_add_one,
      List.take_set_of_le le_rfl, List.getElem?_set_self hlt]
    rfl

theorem overwrite_take {out bytes : List UInt8} {o n : ℕ} (hn : n ≤ bytes.length)
    (ho : o ≤ out.length) :
    (overwrite out o bytes).take (o + n) = out.take o ++ bytes.take n := by
  rw [overwrite, List.append_assoc, List.take_append, List.length_take, Nat.min_eq_left ho,
    List.take_of_length_le (by rw [List.length_take]; omega), Nat.add_sub_cancel_left,
    List.take_append_of_le_length hn]

/-! ### A sequence -/

section Step

variable {literals out : List UInt8} {size litCount frameStart : ℕ}

theorem get_eq_some_iff {a b : ℕ} {bytes : List UInt8} : Copy.get out a b = some bytes ↔
    (a ≤ b ∧ b ≤ out.length) ∧ (out.drop a).take (b - a) = bytes := by
  rw [Copy.get]
  split <;> simp_all

theorem copyRun_eq {lit litLen o : ℕ} (hlit : lit + litLen ≤ literals.length)
    (hliterals : literals.length < 2 ^ 63) (ho : o ≤ out.length) (hlen : out.length < 2 ^ 63) :
    (out.length < o + litLen ∧ copyRun literals out lit litLen o = .fail TOO_LARGE) ∨
    o + litLen ≤ out.length ∧ ∃ out', copyRun literals out lit litLen o = .ok out' ∧
      out'.length = out.length ∧
      out'.take (o + litLen) = out.take o ++ (literals.drop lit).take litLen := by
  rw [copyRun]
  split
  · next src hroom hsrc hle =>
    -- Sixteen bytes, of which the first are the literals.
    obtain ⟨⟨hroom, hfits⟩, -⟩ := get_eq_some_iff.mp hroom
    obtain ⟨⟨hsrc, hend⟩, rfl⟩ := get_eq_some_iff.mp hsrc
    have hle := of_decide_eq_true hle
    rw [wrappingAdd] at hroom hfits hsrc hend ⊢
    rw [Nat.mod_eq_of_lt (by omega)] at hfits hend ⊢
    have hbytes : ((literals.drop lit).take (lit + 16 - lit)).length = 16 := by
      rw [List.length_take, List.length_drop]
      omega
    refine .inr ⟨by omega, _, rfl, length_overwrite (by omega), ?_⟩
    rw [overwrite_take (by omega) ho, List.take_take, Nat.min_eq_left (by omega)]
  · by_cases hfits : o + litLen ≤ out.length
    · have hbytes : ((literals.drop lit).take litLen).length = litLen := by
        rw [List.length_take, List.length_drop]
        omega
      rw [get_eq_some _ hfits, get_eq_some _ hlit]
      refine .inr ⟨hfits, _, rfl, length_overwrite (by omega), ?_⟩
      rw [overwrite_take hbytes.ge ho, List.take_take, Nat.min_self]
    · rw [Copy.get, if_neg (by omega)]
      exact .inl ⟨by omega, rfl⟩

theorem copyMatch_eq {o offset length : ℕ} (ho : o ≤ out.length) (hlen : out.length < 2 ^ 63) :
    ((offset = 0 ∨ o < offset ∨ out.length < o + length) ∧
      copyMatch out o offset length = .ok (none, out)) ∨
    (offset ≠ 0 ∧ o + length ≤ out.length) ∧
      ∃ out', copyMatch out o offset length = .ok (some (o + length), out') ∧
        out'.length = out.length ∧ out'.take (o + length) = extend (out.take o) offset length := by
  by_cases hin : InBuffer out o offset length
  · have ⟨hpos, hsrc, hfits⟩ := hin
    refine .inr ⟨⟨by omega, hfits⟩, _, copyMatch_of_inBuffer hlen hin, length_byteCopy _, ?_⟩
    generalize hn : (if ByWords out o offset length then written length else length) = n
    have hend : length ≤ n ∧ o + n ≤ out.length := by
      rw [← hn, written]
      split
      · next hby => rw [ByWords] at hby; omega
      · omega
    have htake := take_byteCopy hpos hsrc hend.2
    have hext := take_extend (out.take o) offset hend.1
    rw [List.length_take, Nat.min_eq_left ho, ← htake, List.take_take,
      Nat.min_eq_left (by omega)] at hext
    exact hext
  · refine .inl ⟨?_, copyMatch_of_not hin⟩
    rw [InBuffer] at hin
    omega

/-- The positions are in range, and what is before them is what was replayed. -/
structure Exec.Replays (literals : List UInt8) (size litCount frameStart : ℕ) (s : Exec)
    (v : List UInt8 × List UInt8 × Repeats) : Prop where
  length : s.out.length = size
  pos : s.o ≤ size
  frame : frameStart ≤ s.o
  lit : s.lit ≤ litCount
  view : (s.out.take s.o, (literals.take litCount).drop s.lit, s.repeats) = v

/-- A run does what is replayed, or reports an error when nothing is. -/
def Does {α β : Type} (R : α → β → Prop) (x : Outcome String α) (y : Option β) : Prop :=
  (∃ a b, x = .ok a ∧ y = some b ∧ R a b) ∨ (∃ e, x = .fail e) ∧ y = none

/-- **One sequence.** -/
theorem step_spec (hlen : size < 2 ^ 63) (hlits : litCount ≤ literals.length)
    (hliterals : literals.length < 2 ^ 63) {s : Exec} {v : List UInt8 × List UInt8 × Repeats}
    (hs : s.Replays literals size litCount frameStart v) (seq : Sequence) :
    Does (Exec.Replays literals size litCount frameStart)
      (step literals litCount frameStart s seq) (replayStep size frameStart v seq) := by
  obtain ⟨rfl, hpos, hframe, hlit, rfl⟩ := hs
  have hleft : ((literals.take litCount).drop s.lit).length = litCount - s.lit := by
    rw [List.length_drop, List.length_take, Nat.min_eq_left hlits]
  have htake : (s.out.take s.o).length = s.o := by rw [List.length_take]; omega
  rw [step, replayStep]
  rcases offsetOf s.repeats seq.offsetValue seq.litLen with _ | ⟨offset, repeats⟩
  · exact .inr ⟨⟨_, rfl⟩, rfl⟩
  simp only [bind, Option.bind, Except.bind, Outcome.okOr_some, hleft, List.length_append, htake,
    List.drop_drop]
  by_cases hmany : litCount - s.lit < seq.litLen
  · rw [if_pos (.inl hmany), checkedAdd]
    by_cases hsum : s.lit + seq.litLen < 2 ^ 64
    · rw [if_pos hsum]
      exact .inr ⟨⟨_, if_pos (by omega)⟩, rfl⟩
    · rw [if_neg hsum]
      exact .inr ⟨⟨BAD, rfl⟩, rfl⟩
  have hend : checkedAdd s.lit seq.litLen = some (s.lit + seq.litLen) := if_pos (by omega)
  have hoEnd : checkedAdd s.o seq.litLen = some (s.o + seq.litLen) := if_pos (by omega)
  have hnew : ((literals.take litCount).drop s.lit).take seq.litLen =
      (literals.drop s.lit).take seq.litLen := by
    rw [List.drop_take, List.take_take, Nat.min_eq_left (by omega)]
  have hnewLen : ((literals.drop s.lit).take seq.litLen).length = seq.litLen := by
    rw [List.length_take, List.length_drop]
    omega
  rw [hend, hoEnd, hnew, hnewLen]
  simp only [Outcome.okOr_some, if_neg (by omega : ¬litCount < s.lit + seq.litLen)]
  rcases copyRun_eq (by omega : s.lit + seq.litLen ≤ _) hliterals hpos hlen with
    ⟨hover, hrun⟩ | ⟨hfits, out', hrun, hlen', htake'⟩
  · rw [hrun, if_pos (by omega)]
    exact .inr ⟨⟨_, rfl⟩, rfl⟩
  rw [hrun, wrappingSub_of_le (by omega) (by omega), ← htake']
  simp only
  by_cases hback : s.o + seq.litLen - frameStart < offset
  · rw [if_pos hback, if_pos (by omega)]
    exact .inr ⟨⟨_, rfl⟩, rfl⟩
  rw [if_neg hback]
  rcases copyMatch_eq (hfits.trans hlen'.ge) (hlen'.trans_lt hlen) with
    ⟨hnot, hcopy⟩ | ⟨⟨hzero, hroom⟩, copied, hcopy, hsize', hcopied⟩
  · rw [hcopy, if_pos (by omega)]
    exact .inr ⟨⟨TOO_LARGE, rfl⟩, rfl⟩
  · rw [hcopy, if_neg (by omega)]
    refine .inl ⟨⟨copied, s.o + seq.litLen + seq.matchLen, s.lit + seq.litLen, repeats⟩, _,
      rfl, rfl, hsize'.trans hlen', hroom.trans hlen'.le, ?_, ?_, ?_⟩
    · show frameStart ≤ s.o + seq.litLen + seq.matchLen
      omega
    · show s.lit + seq.litLen ≤ litCount
      omega
    · rw [hcopied]

/-- **All sequences.** -/
theorem foldlM_spec (hlen : size < 2 ^ 63) (hlits : litCount ≤ literals.length)
    (hliterals : literals.length < 2 ^ 63) (seqs : List Sequence) {s : Exec}
    {v : List UInt8 × List UInt8 × Repeats} (hs : s.Replays literals size litCount frameStart v) :
    Does (Exec.Replays literals size litCount frameStart)
      (seqs.foldlM (step literals litCount frameStart) s)
      (seqs.foldlM (replayStep size frameStart) v) := by
  induction seqs generalizing s v with
  | nil => exact .inl ⟨s, v, rfl, rfl, hs⟩
  | cons seq seqs ih =>
    rw [List.foldlM_cons, List.foldlM_cons]
    rcases step_spec hlen hlits hliterals hs seq with ⟨s', v', hok, hv, hs'⟩ | ⟨⟨e, he⟩, hnone⟩
    · rw [hok, hv]
      exact ih hs'
    · rw [he, hnone]
      exact .inr ⟨⟨e, rfl⟩, rfl⟩

/-- The buffer before the position is what was replayed. -/
def Written (size : ℕ) (r : ℕ × List UInt8 × Repeats) (v : List UInt8 × Repeats) : Prop :=
  r.1 ≤ size ∧ r.2.1.length = size ∧ (r.2.1.take r.1, r.2.2) = v

/-- **The loop writes what the sequences say (proved).** -/
theorem execute_spec (hlen : out.length < 2 ^ 63) (hlits : litCount ≤ literals.length)
    (hliterals : literals.length < 2 ^ 63) {o : ℕ} (hframe : frameStart ≤ o) (ho : o ≤ out.length)
    (repeats : Repeats) (seqs : List Sequence) :
    Does (Written out.length) (execute literals litCount frameStart seqs ⟨out, o, 0, repeats⟩)
      (replay out.length frameStart seqs (out.take o, literals.take litCount, repeats)) := by
  rw [execute, replay]
  have hs : Exec.Replays literals out.length litCount frameStart ⟨out, o, 0, repeats⟩
      (out.take o, literals.take litCount, repeats) := ⟨rfl, ho, hframe, Nat.zero_le _, rfl⟩
  rcases foldlM_spec hlen hlits hliterals seqs hs with
    ⟨s, _, hok, hv, ⟨hout, hpos, -, hlit, rfl⟩⟩ | ⟨⟨e, he⟩, hnone⟩
  · have hrest : Copy.get literals s.lit litCount = some ((literals.take litCount).drop s.lit) := by
      rw [Copy.get, if_pos ⟨hlit, hlits⟩, List.drop_take]
    rw [hok, hv]
    simp only [bind, Option.bind, Except.bind, hrest, Option.getD_some]
    generalize hr : (literals.take litCount).drop s.lit = rest
    have hshort : rest.length < 2 ^ 63 := by
      rw [← hr, List.length_drop, List.length_take]
      omega
    rw [copyLiterals, checkedAdd, if_pos (by omega), List.length_append, List.length_take]
    simp only [bind, Option.bind]
    by_cases hfits : s.o + rest.length ≤ s.out.length
    · rw [get_eq_some _ hfits, if_neg (by omega)]
      refine .inl ⟨_, _, rfl, rfl, by omega, (length_overwrite hfits).trans hout, ?_⟩
      rw [overwrite_take le_rfl (hpos.trans hout.ge), List.take_length]
    · rw [Copy.get, if_neg (by omega), if_pos (by omega)]
      exact .inr ⟨⟨TOO_LARGE, rfl⟩, rfl⟩
  · rw [he, hnone]
    exact .inr ⟨⟨e, rfl⟩, rfl⟩

/-- Literals in one copy of sixteen bytes, a match that overlaps itself, one of three bytes in one copy
of eight, and the literals that are left. -/
theorem execute_spec_overlap : Does (Written 40)
    (execute ((List.range' 1 20).map UInt8.ofNat) 18 0 [⟨4, 12, 3⟩, ⟨11, 3, 2⟩]
      ⟨List.replicate 40 0, 0, 0, 1, 4, 8⟩)
    (replay 40 0 [⟨4, 12, 3⟩, ⟨11, 3, 2⟩]
      ([], ((List.range' 1 20).map UInt8.ofNat).take 18, 1, 4, 8)) :=
  execute_spec (by decide) (by decide) (by decide) le_rfl (by decide) _ _

end Step

end Qld.Debug.Zstd
