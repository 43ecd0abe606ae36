import Qld.Elf.Read.Strtab

/-!
# Splitting a mergeable section into pieces

The model of `passes/merge/split.rs`, phase 1 of section merging.

* `splitSection` — the checks, the starts of the pieces and their hashes;
* `Cut` — the data with the starts of its pieces, enough for `bounds` and `bytesOf`;
* `SplitSection` — a section that `splitSection` accepted: its fields say that the pieces are
  nonempty, tile the data in order and have the hashes of their bytes;
* `pieceAt` — the piece that covers an offset, with the per-thread cell as an argument.

The piece hash is a parameter: any function of the bytes.
-/

namespace Qld.Passes.Merge

open Qld.Elf.Read

/-- Minimum number of pieces per parallel task within one section. -/
def MIN_PIECES_PER_TASK : ℕ := 1024

/-- How a mergeable section splits into pieces. -/
inductive MergeKind where
  | strings (charSize : ℕ)
  | fixed (entrySize : ℕ)
  deriving DecidableEq, Repr

/-- What is wrong with a malformed mergeable section. -/
inductive MergeProblem where
  | unterminatedString
  | sizeNotMultiple (unit : ℕ)
  | invalidEntrySize (size : ℕ)
  | invalidAlignment (alignment : ℕ)
  | tooLarge (size : ℕ)
  deriving DecidableEq, Repr

/-- A malformed mergeable input section, as found by `splitSection`. -/
structure MalformedMerge where
  offset : ℕ
  problem : MergeProblem
  deriving DecidableEq, Repr

/-- A location inside a piece of one split section. -/
structure PieceRef where
  piece : ℕ
  addend : ℕ
  deriving DecidableEq, Repr

/-- The character size is 1, 2 or 4; the entry size is not zero. -/
def MergeKind.valid : MergeKind → Bool
  | .strings charSize => charSize == 1 || charSize == 2 || charSize == 4
  | .fixed entrySize => entrySize != 0

/-- `data.get(start..stop)`. -/
def slice (data : List UInt8) (start stop : ℕ) : Option (List UInt8) :=
  if start ≤ stop ∧ stop ≤ data.length then some ((data.drop start).take (stop - start)) else none

/-! ### Pieces -/

/-- The data of a section, cut into pieces.  For fixed-size entries `starts` is empty. -/
structure Cut where
  data : List UInt8
  kind : MergeKind
  starts : List ℕ
  deriving DecidableEq, Repr

namespace Cut

/-- Byte range of `piece`; `(0, 0)` if it does not exist. -/
def bounds (c : Cut) (piece : ℕ) : ℕ × ℕ :=
  match c.kind with
  | .strings _ =>
    match c.starts[piece]? with
    | some start => (start, c.starts[piece + 1]?.getD c.data.length)
    | none => (0, 0)
  | .fixed entrySize =>
    let start := min (piece * entrySize) c.data.length
    (start, min (start + entrySize) c.data.length)

/-- The bytes of `piece`; empty if it does not exist. -/
def bytesOf (c : Cut) (piece : ℕ) : List UInt8 :=
  (slice c.data (c.bounds piece).1 (c.bounds piece).2).getD []

/-- The `n` pieces are nonempty and tile the data in order. -/
def Tiled (c : Cut) (n : ℕ) : Prop :=
  match c.kind with
  | .strings _ => c.starts.length = n ∧
      ∃ ends, c.starts ++ [c.data.length] = 0 :: ends ∧ (0 :: ends).Pairwise (· < ·)
  | .fixed entrySize => 0 < entrySize ∧ c.data.length = n * entrySize

end Cut

/-! ### Splitting -/

/-- `data.chunks_exact(unit)`. -/
def chunksExact (unit : ℕ) (data : List UInt8) : List (List UInt8) :=
  (List.range (data.length / unit)).map fun i => (data.drop (i * unit)).take unit

/-- A character is a terminator when all its bytes are zero. -/
def isNul (c : List UInt8) : Bool := c.all fun b => b == 0

/-- `iter.rposition(p)`. -/
def rposition {α : Type*} (p : α → Bool) (l : List α) : Option ℕ :=
  (l.reverse.findIdx? p).map fun i => l.length - 1 - i

/-- Counts the pieces of one section, validating its size and terminator. -/
def countPieces (kind : MergeKind) (data : List UInt8) : Except MalformedMerge ℕ :=
  let len := data.length
  match kind with
  | .strings charSize =>
    let unit := max charSize 1
    let remainder := len % unit
    if remainder ≠ 0 then .error ⟨len - remainder, .sizeNotMultiple unit⟩
    else if unit = 1 then
      if data.getLast?.any (· != 0) then
        let start := (rposition (fun b => b == 0) data).elim 0 (· + 1)
        .error ⟨start, .unterminatedString⟩
      else .ok (data.filter fun b => b == 0).length
    else if (chunksExact unit data).getLast?.any fun c => !isNul c then
      let start := (rposition isNul (chunksExact unit data)).elim 0 fun p => (p + 1) * unit
      .error ⟨start, .unterminatedString⟩
    else .ok ((chunksExact unit data).filter isNul).length
  | .fixed entrySize =>
    if entrySize = 0 then .error ⟨0, .sizeNotMultiple entrySize⟩
    else if len % entrySize ≠ 0 then
      .error ⟨len - len % entrySize, .sizeNotMultiple entrySize⟩
    else .ok (len / entrySize)

/-- The ends of the strings of one-byte characters: the `while` loop of `split_strings`, with
`position` and the bytes from there on. -/
def nulEnds : ℕ → ℕ → List UInt8 → List ℕ
  | 0, _, _ => []
  | fuel + 1, position, rest =>
    match findNul rest with
    | none => []
    | some nul =>
      let position := position + (nul + 1)
      position :: nulEnds fuel position (rest.drop (nul + 1))

/-- The ends of the strings of wider characters. -/
def charEnds (unit : ℕ) (data : List UInt8) : List ℕ :=
  ((chunksExact unit data).zipIdx.filter fun c => isNul c.1).map fun c => (c.2 + 1) * unit

/-- The starts that `record` writes to `count` slots, each the end before it. -/
def recordStarts : (count start : ℕ) → (ends : List ℕ) → List ℕ
  | 0, _, _ => []
  | count + 1, _, [] => List.replicate (count + 1) 0
  | count + 1, start, stop :: ends => start :: recordStarts count stop ends

section

variable (hashPiece : List UInt8 → UInt64)

/-- The hashes that `record` writes to `count` slots. -/
def recordHashes (data : List UInt8) : (count start : ℕ) → (ends : List ℕ) → List UInt64
  | 0, _, _ => []
  | count + 1, _, [] => List.replicate (count + 1) 0
  | count + 1, start, stop :: ends =>
    hashPiece ((slice data start stop).getD []) :: recordHashes data count stop ends

/-- Records the start and hash of every string of a validated section. -/
def splitStrings (data : List UInt8) (unit count : ℕ) : List ℕ × List UInt64 :=
  let ends := if unit = 1 then nulEnds data.length 0 data else charEnds unit data
  let starts := recordStarts count 0 ends
  let hashes :=
    if count > MIN_PIECES_PER_TASK then
      (List.range count).map fun piece =>
        let start := starts[piece]?.getD 0
        let stop := starts[piece + 1]?.getD data.length
        hashPiece ((slice data start stop).getD [])
    else recordHashes hashPiece data count 0 ends
  (starts, hashes)

/-- What `split_section` computes: the cut and the hashes. -/
def splitParts (data : List UInt8) (kind : MergeKind) (alignment : ℕ) :
    Except MalformedMerge (Cut × List UInt64) :=
  if ¬ alignment.isPowerOfTwo then .error ⟨0, .invalidAlignment alignment⟩
  else if !kind.valid then
    match kind with
    | .strings charSize => .error ⟨0, .invalidEntrySize charSize⟩
    | .fixed _ => .error ⟨0, .invalidEntrySize 0⟩
  else if data.length ≥ 2 ^ 32 then .error ⟨0, .tooLarge data.length⟩
  else do
    let count ← countPieces kind data
    match kind with
    | .strings charSize =>
      let (starts, hashes) := splitStrings hashPiece data charSize count
      pure (⟨data, kind, starts⟩, hashes)
    | .fixed entrySize =>
      let hashes := (List.range count).map fun piece =>
        ((chunksExact entrySize data)[piece]?).elim 0 hashPiece
      pure (⟨data, kind, []⟩, hashes)

end

/-! ### The pieces tile the data -/

/-- The ends of the strings of characters of `unit` bytes, from which of the characters are
terminators. -/
def endsOf (unit : ℕ) : ℕ → List Bool → List ℕ
  | _, [] => []
  | position, true :: flags => (position + unit) :: endsOf unit (position + unit) flags
  | position, false :: flags => endsOf unit (position + unit) flags

theorem length_endsOf (unit : ℕ) (flags : List Bool) :
    ∀ position, (endsOf unit position flags).length = flags.count true := by
  induction flags with
  | nil => intro _; rfl
  | cons flag flags ih =>
    intro position
    cases flag with
    | true => rw [endsOf, List.length_cons, ih, List.count_cons_self]
    | false => rw [endsOf, ih, List.count_cons_of_ne (by decide)]

theorem lt_of_mem_endsOf {unit : ℕ} (hunit : 0 < unit) (flags : List Bool) :
    ∀ position, ∀ e ∈ endsOf unit position flags, position < e := by
  induction flags with
  | nil => intro _ e he; exact absurd he List.not_mem_nil
  | cons flag flags ih =>
    intro position e he
    cases flag with
    | true =>
      rcases List.mem_cons.mp he with rfl | he
      · omega
      · have := ih (position + unit) e he
        omega
    | false =>
      have := ih (position + unit) e he
      omega

theorem pairwise_endsOf {unit : ℕ} (hunit : 0 < unit) (flags : List Bool) :
    ∀ position, (endsOf unit position flags).Pairwise (· < ·) := by
  induction flags with
  | nil => intro _; exact List.Pairwise.nil
  | cons flag flags ih =>
    intro position
    cases flag with
    | true => exact List.pairwise_cons.mpr ⟨lt_of_mem_endsOf hunit flags _, ih _⟩
    | false => exact ih _

/-- If the last character is a terminator, the last string ends with the data. -/
theorem getLast?_endsOf (unit : ℕ) (flags : List Bool) : ∀ position,
    flags.getLast? = some true →
      (endsOf unit position flags).getLast? = some (position + flags.length * unit) := by
  induction flags with
  | nil => intro _ h; exact absurd h (by simp)
  | cons flag flags ih =>
    intro position hlast
    cases flags with
    | nil =>
      rw [List.getLast?_singleton, Option.some.injEq] at hlast
      subst hlast
      simp [endsOf]
    | cons flag' flags =>
      rw [List.getLast?_cons_cons] at hlast
      have hrest := ih (position + unit) hlast
      have hsum : position + unit + (flag' :: flags).length * unit =
          position + (flag :: flag' :: flags).length * unit := by
        simp only [List.length_cons]
        ring
      rw [hsum] at hrest
      cases flag with
      | true =>
        rw [endsOf, List.getLast?_cons, hrest]
        rfl
      | false => rw [endsOf, hrest]

/-- The `while` loop finds the ends of the strings. -/
theorem nulEnds_eq (fuel : ℕ) : ∀ (position : ℕ) (rest : List UInt8), rest.length ≤ fuel →
    nulEnds fuel position rest = endsOf 1 position (rest.map fun b => b == 0) := by
  induction fuel with
  | zero =>
    intro position rest hrest
    rw [List.length_eq_zero_iff.mp (Nat.le_zero.mp hrest)]
    rfl
  | succ fuel ih =>
    intro position rest hrest
    -- What the search skips has no terminator.
    have hskip : ∀ (l : List UInt8) (position : ℕ),
        (match findNul l with
          | none => []
          | some nul => (position + (nul + 1)) ::
            endsOf 1 (position + (nul + 1)) ((l.drop (nul + 1)).map fun b => b == 0)) =
        endsOf 1 position (l.map fun b => b == 0) := by
      intro l
      induction l with
      | nil => intro position; rfl
      | cons b l ihl =>
        intro position
        have hl := ihl (position + 1)
        rw [findNul_eq] at hl ⊢
        rw [List.findIdx?_cons, List.map_cons]
        by_cases hb : b = 0
        · subst hb
          simp [endsOf]
        · rw [beq_false_of_ne hb, endsOf, ← hl]
          cases (l.findIdx? fun b => b == 0) with
          | none => rfl
          | some nul =>
            have hpos : position + (nul + 1 + 1) = position + 1 + (nul + 1) := by omega
            simp only [Bool.false_eq_true, if_false, Option.map_some, List.drop_succ_cons, hpos]
    rw [nulEnds, ← hskip rest position]
    cases hnul : findNul rest with
    | none => rfl
    | some nul =>
      have hne : rest ≠ [] := by
        rintro rfl
        rw [findNul_eq] at hnul
        exact absurd hnul (by simp)
      have hpos := List.length_pos_iff.mpr hne
      simp only
      rw [ih _ _ (by rw [List.length_drop]; omega)]

theorem charEnds_eq (unit : ℕ) (data : List UInt8) :
    charEnds unit data = endsOf unit 0 ((chunksExact unit data).map isNul) := by
  have hgen : ∀ (cs : List (List UInt8)) (n : ℕ),
      ((cs.zipIdx n).filter fun c => isNul c.1).map (fun c => (c.2 + 1) * unit) =
        endsOf unit (n * unit) (cs.map isNul) := by
    intro cs
    induction cs with
    | nil => intro _; rfl
    | cons c cs ih =>
      intro n
      have hnext := ih (n + 1)
      rw [Nat.succ_mul] at hnext
      rw [List.zipIdx_cons, List.map_cons, List.filter_cons]
      cases hc : isNul c with
      | true =>
        simp only [if_true, List.map_cons, hnext, endsOf]
        rw [Nat.succ_mul]
      | false => simp only [Bool.false_eq_true, if_false, hnext, endsOf]
  rw [charEnds, hgen, Nat.zero_mul]

/-- With one slot for each end, every start is recorded. -/
theorem recordStarts_append (ends : List ℕ) : ∀ start,
    recordStarts ends.length start ends ++ [(start :: ends).getLast (List.cons_ne_nil _ _)] =
      start :: ends := by
  induction ends with
  | nil => intro _; rfl
  | cons stop ends ih =>
    intro start
    rw [List.length_cons, recordStarts, List.cons_append, List.getLast_cons_cons, ih]

theorem length_recordStarts (count : ℕ) : ∀ (start : ℕ) (ends : List ℕ),
    (recordStarts count start ends).length = count := by
  induction count with
  | zero => intro _ _; rfl
  | succ count ih =>
    intro start ends
    cases ends with
    | nil => simp [recordStarts]
    | cons stop ends => rw [recordStarts, List.length_cons, ih]

theorem length_recordHashes (hashPiece : List UInt8 → UInt64) (data : List UInt8) (count : ℕ) :
    ∀ (start : ℕ) (ends : List ℕ), (recordHashes hashPiece data count start ends).length = count := by
  induction count with
  | zero => intro _ _; rfl
  | succ count ih =>
    intro start ends
    cases ends with
    | nil => simp [recordHashes]
    | cons stop ends => rw [recordHashes, List.length_cons, ih]

/-- Each recorded hash is that of the bytes between two ends. -/
theorem getElem?_recordHashes (hashPiece : List UInt8 → UInt64) (data : List UInt8)
    (ends : List ℕ) : ∀ (start piece a b : ℕ), (start :: ends)[piece]? = some a →
      (start :: ends)[piece + 1]? = some b →
      (recordHashes hashPiece data ends.length start ends)[piece]? =
        some (hashPiece ((slice data a b).getD [])) := by
  induction ends with
  | nil => intro start piece a b _ hb; exact absurd hb (by simp)
  | cons stop ends ih =>
    intro start piece a b ha hb
    rw [List.length_cons, recordHashes]
    cases piece with
    | zero =>
      simp only [List.getElem?_cons_zero, List.getElem?_cons_succ, Option.some.injEq,
        Nat.zero_add] at ha hb ⊢
      rw [ha, hb]
    | succ piece =>
      rw [List.getElem?_cons_succ] at ha hb ⊢
      exact ih stop piece a b ha hb

/-- Which characters of a string section are terminators. -/
def nulFlags (unit : ℕ) (data : List UInt8) : List Bool :=
  if unit = 1 then data.map fun b => b == 0 else (chunksExact unit data).map isNul

theorem length_nulFlags (unit : ℕ) (data : List UInt8) :
    (nulFlags unit data).length = data.length / unit := by
  unfold nulFlags chunksExact
  split
  · next h => simp [h]
  · simp

/-- What `count_pieces` checked of a string section. -/
theorem countPieces_strings {charSize count : ℕ} {data : List UInt8} (hsize : 0 < charSize)
    (h : countPieces (.strings charSize) data = .ok count) :
    data.length % charSize = 0 ∧ count = (nulFlags charSize data).count true ∧
      (data = [] ∨ (nulFlags charSize data).getLast? = some true) := by
  have hmax : max charSize 1 = charSize := by omega
  have hcount : ∀ {α : Type} (p : α → Bool) (l : List α),
      (l.filter p).length = (l.map p).count true := by
    intro α p l
    rw [← List.countP_eq_length_filter, List.count, List.countP_map]
    congr 1
    funext x
    simp
  have hlast : ∀ {α : Type} (p : α → Bool) (l : List α), ¬ (l.getLast?.any fun x => !p x) = true →
      l = [] ∨ (l.map p).getLast? = some true := by
    intro α p l hl
    rw [List.getLast?_map]
    cases hx : l.getLast? with
    | none => exact .inl (List.getLast?_eq_none_iff.mp hx)
    | some x =>
      rw [hx, Option.any_some, Bool.not_eq_true, Bool.not_eq_false'] at hl
      exact .inr (by rw [Option.map_some, hl])
  simp only [countPieces, hmax] at h
  split at h
  · exact absurd h (by simp)
  · next hmod =>
    have hmod : data.length % charSize = 0 := by omega
    split at h
    · next hone =>
      split at h
      · exact absurd h (by simp)
      · next hterm =>
        rw [Except.ok.injEq] at h
        simp only [nulFlags, if_pos hone]
        exact ⟨hmod, by rw [← h, hcount], hlast (fun b => b == 0) data hterm⟩
    · next hone =>
      split at h
      · exact absurd h (by simp)
      · next hterm =>
        rw [Except.ok.injEq] at h
        simp only [nulFlags, if_neg hone]
        refine ⟨hmod, by rw [← h, hcount], ?_⟩
        rcases hlast isNul _ hterm with hnil | hnul
        · left
          have hzero : data.length / charSize = 0 := by
            have := congrArg List.length hnil
            simpa [chunksExact] using this
          have := Nat.div_add_mod data.length charSize
          rw [hzero, hmod] at this
          exact List.length_eq_zero_iff.mp (by omega)
        · exact .inr hnul

theorem countPieces_fixed {entrySize count : ℕ} {data : List UInt8}
    (h : countPieces (.fixed entrySize) data = .ok count) :
    0 < entrySize ∧ data.length = count * entrySize := by
  simp only [countPieces] at h
  split at h
  · exact absurd h (by simp)
  · split at h
    · exact absurd h (by simp)
    · next hsize hmod =>
      rw [Except.ok.injEq] at h
      have := Nat.div_add_mod data.length entrySize
      rw [← h, Nat.mul_comm]
      omega

section Parts

variable {hashPiece : List UInt8 → UInt64} {data : List UInt8}

/-- The ends that `split_strings` records. -/
def stringEnds (unit : ℕ) (data : List UInt8) : List ℕ := endsOf unit 0 (nulFlags unit data)

/-- The starts of the strings and the end of the data are the ends of the strings, after 0. -/
theorem starts_append {unit count : ℕ} (hunit : 0 < unit)
    (h : countPieces (.strings unit) data = .ok count) :
    count = (stringEnds unit data).length ∧
      recordStarts count 0 (stringEnds unit data) ++ [data.length] = 0 :: stringEnds unit data := by
  obtain ⟨hmod, hcount, hterm⟩ := countPieces_strings hunit h
  have hlen : count = (stringEnds unit data).length := by rw [stringEnds, length_endsOf, hcount]
  refine ⟨hlen, ?_⟩
  have hlast : (0 :: stringEnds unit data).getLast (List.cons_ne_nil _ _) = data.length := by
    rcases hterm with rfl | hterm
    · have hnil : stringEnds unit [] = [] := by
        have hflags : nulFlags unit [] = [] := by
          rw [← List.length_eq_zero_iff, length_nulFlags]
          simp
        rw [stringEnds, hflags]
        rfl
      simp [hnil]
    · have hends := getLast?_endsOf unit (nulFlags unit data) 0 hterm
      rw [length_nulFlags, Nat.zero_add, Nat.div_mul_cancel (Nat.dvd_of_mod_eq_zero hmod)] at hends
      have hcons : (0 :: stringEnds unit data).getLast? = some data.length := by
        rw [List.getLast?_cons, stringEnds, hends]
        rfl
      rw [List.getLast?_eq_some_getLast (List.cons_ne_nil _ _), Option.some.injEq] at hcons
      exact hcons
  rw [← hlast, hlen]
  exact recordStarts_append (stringEnds unit data) 0

theorem stringEnds_eq (unit : ℕ) :
    (if unit = 1 then nulEnds data.length 0 data else charEnds unit data) =
      stringEnds unit data := by
  split
  · next h => rw [nulEnds_eq _ _ _ le_rfl, stringEnds, nulFlags, if_pos h, h]
  · next h => rw [charEnds_eq, stringEnds, nulFlags, if_neg h]

theorem splitStrings_starts (unit count : ℕ) :
    (splitStrings hashPiece data unit count).1 = recordStarts count 0 (stringEnds unit data) := by
  simp only [splitStrings, stringEnds_eq]

/-- The bounds of a string, from the list of all starts and the end of the data. -/
theorem bounds_strings {c : Cut} {charSize : ℕ} (hkind : c.kind = .strings charSize)
    {ends : List ℕ} (hends : c.starts ++ [c.data.length] = 0 :: ends) {piece : ℕ}
    (hpiece : piece < c.starts.length) :
    ∃ a b, (0 :: ends)[piece]? = some a ∧ (0 :: ends)[piece + 1]? = some b ∧
      c.bounds piece = (a, b) := by
  have hstart : c.starts[piece]? = some (c.starts.get ⟨piece, hpiece⟩) :=
    List.getElem?_eq_getElem hpiece
  have hnext : (c.starts ++ [c.data.length])[piece + 1]? =
      some (c.starts[piece + 1]?.getD c.data.length) := by
    by_cases hlast : piece + 1 < c.starts.length
    · rw [List.getElem?_append_left hlast, List.getElem?_eq_getElem hlast]
      rfl
    · have hnone : c.starts[piece + 1]? = none := List.getElem?_eq_none (by omega)
      rw [List.getElem?_append_right (by omega), hnone,
        show piece + 1 - c.starts.length = 0 by omega]
      rfl
  refine ⟨c.starts.get ⟨piece, hpiece⟩, c.starts[piece + 1]?.getD c.data.length, ?_, ?_, ?_⟩
  · rw [← hends, List.getElem?_append_left hpiece, hstart]
  · rw [← hends, hnext]
  · simp only [Cut.bounds, hkind, hstart]

/-- **A section that is accepted is cut into nonempty pieces that tile it**, and every
piece has the hash of its bytes. -/
theorem splitParts_ok {kind : MergeKind} {alignment : ℕ} {c : Cut} {hashes : List UInt64}
    (h : splitParts hashPiece data kind alignment = .ok (c, hashes)) :
    c.data = data ∧ c.kind = kind ∧ alignment.isPowerOfTwo ∧ kind.valid = true ∧
      data.length < 2 ^ 32 ∧ c.Tiled hashes.length ∧
      ∀ piece, piece < hashes.length → hashes[piece]? = some (hashPiece (c.bytesOf piece)) := by
  unfold splitParts at h
  split at h
  · exact absurd h (by simp)
  next halign =>
  split at h
  · split at h <;> exact absurd h (by simp)
  next hvalid =>
  split at h
  · exact absurd h (by simp)
  next hfits =>
  have halign : alignment.isPowerOfTwo := by simpa using halign
  have hvalid : kind.valid = true := by simpa using hvalid
  cases hcount : countPieces kind data with
  | error e => rw [hcount] at h; exact absurd h (by simp [bind, Except.bind])
  | ok count =>
    rw [hcount] at h
    cases kind with
    | strings charSize =>
      have hsize : 0 < charSize := by
        simp only [MergeKind.valid, Bool.or_eq_true, beq_iff_eq] at hvalid
        omega
      obtain ⟨hlen, happend⟩ := starts_append hsize hcount
      have hpair : (0 :: stringEnds charSize data).Pairwise (· < ·) :=
        List.pairwise_cons.mpr ⟨lt_of_mem_endsOf hsize _ 0, pairwise_endsOf hsize _ 0⟩
      simp only [bind, Except.bind, pure, Except.pure, Except.ok.injEq, Prod.mk.injEq] at h
      obtain ⟨rfl, rfl⟩ := h
      have hstarts : (splitStrings hashPiece data charSize count).1.length = count := by
        rw [splitStrings_starts, length_recordStarts]
      have hhashes : (splitStrings hashPiece data charSize count).2.length = count := by
        simp only [splitStrings]
        split
        · simp
        · exact length_recordHashes _ _ _ _ _
      refine ⟨rfl, rfl, halign, hvalid, by omega, ⟨?_, ?_⟩, ?_⟩
      · rw [hstarts, hhashes]
      · exact ⟨stringEnds charSize data, by rw [splitStrings_starts, happend], hpair⟩
      · intro piece hpiece
        rw [hhashes] at hpiece
        obtain ⟨a, b, ha, hb, hbounds⟩ := bounds_strings
          (c := ⟨data, .strings charSize, (splitStrings hashPiece data charSize count).1⟩) rfl
          (by rw [splitStrings_starts]; exact happend) (by rw [hstarts]; exact hpiece)
        rw [Cut.bytesOf, hbounds]
        simp only [splitStrings]
        split
        · -- The hashes are computed from the starts, in parallel.
          rw [List.getElem?_map, List.getElem?_range hpiece, Option.map_some]
          simp only [Cut.bounds, splitStrings] at hbounds
          split at hbounds
          · next start hstart =>
            simp only [Prod.mk.injEq] at hbounds
            rw [hstart, hbounds.2, ← hbounds.1]
            rfl
          · next hnone =>
            have hlt : piece < (splitStrings hashPiece data charSize count).1.length := by
              rw [hstarts]
              exact hpiece
            rw [List.getElem?_eq_none_iff] at hnone
            exact absurd hlt (Nat.not_lt.mpr hnone)
        · rw [hlen, stringEnds_eq]
          exact getElem?_recordHashes hashPiece data _ 0 piece a b ha hb
    | fixed entrySize =>
      obtain ⟨hsize, hlen⟩ := countPieces_fixed hcount
      simp only [bind, Except.bind, pure, Except.pure, Except.ok.injEq, Prod.mk.injEq] at h
      obtain ⟨rfl, rfl⟩ := h
      refine ⟨rfl, rfl, halign, hvalid, by omega, ⟨hsize, by simpa using hlen⟩, ?_⟩
      intro piece hpiece
      rw [List.length_map, List.length_range] at hpiece
      have hdiv : data.length / entrySize = count := by
        rw [hlen]
        exact Nat.mul_div_cancel _ hsize
      have hle : (piece + 1) * entrySize ≤ data.length := by
        rw [hlen]
        exact Nat.mul_le_mul_right _ hpiece
      rw [Nat.succ_mul] at hle
      rw [List.getElem?_map, List.getElem?_range hpiece, Option.map_some, chunksExact, hdiv,
        List.getElem?_map, List.getElem?_range hpiece, Option.map_some, Option.elim_some,
        Cut.bytesOf, Cut.bounds]
      simp only [slice]
      rw [Nat.min_eq_left (show piece * entrySize ≤ data.length by omega),
        Nat.min_eq_left hle, if_pos ⟨by omega, hle⟩, Nat.add_sub_cancel_left]
      rfl

end Parts

/-! ### Split sections -/

/-- One mergeable input section, split into pieces: what `splitSection` accepts. -/
structure SplitSection (hashPiece : List UInt8 → UInt64) extends Cut where
  alignment : ℕ
  hashes : List UInt64
  powerOfTwo : alignment.isPowerOfTwo
  validKind : kind.valid = true
  fits : data.length < 2 ^ 32
  tiled : toCut.Tiled hashes.length
  hashed : ∀ piece, piece < hashes.length →
    hashes[piece]? = some (hashPiece (toCut.bytesOf piece))

/-- Splits one mergeable section into pieces and hashes each piece. -/
def splitSection (hashPiece : List UInt8 → UInt64) (data : List UInt8) (kind : MergeKind)
    (alignment : ℕ) : Except MalformedMerge (SplitSection hashPiece) :=
  match h : splitParts hashPiece data kind alignment with
  | .error e => .error e
  | .ok (c, hashes) =>
    have hok := splitParts_ok h
    .ok {
      toCut := c
      alignment := alignment
      hashes := hashes
      powerOfTwo := hok.2.2.1
      validKind := hok.2.1 ▸ hok.2.2.2.1
      fits := hok.1 ▸ hok.2.2.2.2.1
      tiled := hok.2.2.2.2.2.1
      hashed := hok.2.2.2.2.2.2 }

namespace SplitSection

variable {hashPiece : List UInt8 → UInt64} (s : SplitSection hashPiece)

/-- Number of pieces. -/
def numPieces : ℕ := s.hashes.length

/-- Whether `piece` of a string section covers `offset`. -/
def covers (offset piece : ℕ) : Bool :=
  let stop := s.starts[piece + 1]?.getD (min s.data.length (2 ^ 32 - 1))
  s.starts[piece]?.any fun start => start ≤ offset && offset < stop

/-- The piece of a string section that covers `offset`, and the new contents of the per-thread
cell.  The cell holds a section (by address) and a piece; `key` is this section's address. -/
def stringPieceAt (key : ℕ) (cell : ℕ × ℕ) (offset : ℕ) : Option ℕ × (ℕ × ℕ) :=
  let next := (cell.2 + 1) % 2 ^ 64
  if cell.1 = key ∧ s.covers offset cell.2 then (some cell.2, (key, cell.2))
  else if cell.1 = key ∧ s.covers offset next then (some next, (key, next))
  else
    match (s.starts.takeWhile fun start => start ≤ offset).length with
    | 0 => (none, cell)
    | piece + 1 => (some piece, (key, piece))

/-- Finds the piece containing `offset` and the offset within that piece. -/
def pieceAt (key : ℕ) (cell : ℕ × ℕ) (offset : ℕ) : Option PieceRef :=
  if offset ≥ s.data.length then none
  else
    match s.kind with
    | .strings _ =>
      if offset ≥ 2 ^ 32 then none
      else do
        let piece ← (s.stringPieceAt key cell offset).1
        let start ← s.starts[piece]?
        if piece < 2 ^ 32 then some ⟨piece, offset - start⟩ else none
    | .fixed entrySize =>
      if offset / entrySize < 2 ^ 32 then some ⟨offset / entrySize, offset % entrySize⟩ else none

/-! ### Where the pieces are -/

variable {piece offset : ℕ}

/-- The bounds of a piece are in range, and the piece is not empty. -/
theorem bounds_lt (hpiece : piece < s.numPieces) :
    (s.bounds piece).1 < (s.bounds piece).2 ∧ (s.bounds piece).2 ≤ s.data.length := by
  have htiled := s.tiled
  unfold Cut.Tiled at htiled
  split at htiled
  · next charSize hkind =>
    obtain ⟨hlen, ends, hends, hpair⟩ := htiled
    obtain ⟨a, b, ha, hb, hbounds⟩ := bounds_strings hkind hends
      (show piece < s.starts.length by rw [hlen]; exact hpiece)
    rw [hbounds]
    rw [List.pairwise_iff_getElem] at hpair
    obtain ⟨hal, ha⟩ := List.getElem?_eq_some_iff.mp ha
    obtain ⟨hbl, hb⟩ := List.getElem?_eq_some_iff.mp hb
    refine ⟨by rw [← ha, ← hb]; exact hpair piece (piece + 1) hal hbl (by omega), ?_⟩
    -- The last entry of the list is the length of the data.
    have hlast : (0 :: ends).length = s.starts.length + 1 := by rw [← hends]; simp
    have hend : (0 :: ends)[s.starts.length]? = some s.data.length := by
      rw [← hends, List.getElem?_append_right le_rfl, Nat.sub_self]
      rfl
    obtain ⟨hel, hend⟩ := List.getElem?_eq_some_iff.mp hend
    rcases Nat.lt_or_ge (piece + 1) s.starts.length with hlt | hge
    · rw [← hend, ← hb]
      exact (hpair (piece + 1) s.starts.length hbl hel hlt).le
    · have heq : piece + 1 = s.starts.length := by omega
      rw [← hend, ← hb]
      simp only [heq]
      exact le_rfl
  · next entrySize hkind =>
    obtain ⟨hsize, hlen⟩ := htiled
    have hle : (piece + 1) * entrySize ≤ s.data.length := by
      rw [hlen]
      exact Nat.mul_le_mul_right _ hpiece
    rw [Nat.succ_mul] at hle
    simp only [Cut.bounds, hkind]
    omega

theorem length_bytesOf (hpiece : piece < s.numPieces) :
    (s.bytesOf piece).length = (s.bounds piece).2 - (s.bounds piece).1 := by
  obtain ⟨hlt, hle⟩ := s.bounds_lt hpiece
  rw [Cut.bytesOf, slice, if_pos ⟨hlt.le, hle⟩, Option.getD_some, List.length_take,
    List.length_drop]
  omega

theorem bytesOf_eq (hpiece : piece < s.numPieces) :
    s.bytesOf piece =
      (s.data.drop (s.bounds piece).1).take ((s.bounds piece).2 - (s.bounds piece).1) := by
  obtain ⟨hlt, hle⟩ := s.bounds_lt hpiece
  rw [Cut.bytesOf, slice, if_pos ⟨hlt.le, hle⟩, Option.getD_some]

/-- The piece that covers an offset: the piece and the bounds around the offset. -/
def At (offset piece : ℕ) : Prop :=
  piece < s.numPieces ∧ (s.bounds piece).1 ≤ offset ∧ offset < (s.bounds piece).2

/-- In a string section, `covers` decides where an offset is. -/
theorem at_of_covers {charSize : ℕ} (hkind : s.kind = .strings charSize)
    (h : s.covers offset piece = true) :
    s.At offset piece ∧ s.starts[piece]? = some (s.bounds piece).1 := by
  have htiled := s.tiled
  simp only [Cut.Tiled, hkind] at htiled
  unfold covers at h
  rw [Nat.min_eq_left (by have := s.fits; omega)] at h
  cases hstart : s.starts[piece]? with
  | none => rw [hstart] at h; exact absurd h (by simp)
  | some start =>
    rw [hstart, Option.any_some, Bool.and_eq_true, decide_eq_true_eq, decide_eq_true_eq] at h
    have hlt : piece < s.starts.length := (List.getElem?_eq_some_iff.mp hstart).1
    have hbounds : s.bounds piece = (start, s.starts[piece + 1]?.getD s.data.length) := by
      simp only [Cut.bounds, hkind, hstart]
    refine ⟨⟨?_, ?_, ?_⟩, ?_⟩
    · rw [numPieces, ← htiled.1]
      exact hlt
    · rw [hbounds]
      exact h.1
    · rw [hbounds]
      exact h.2
    · rw [hbounds]

/-- An ascending list of numbers grows at least as fast as its indices. -/
theorem add_le_of_pairwise (l : List ℕ) : ∀ n : ℕ, l.Pairwise (· < ·) → (∀ x ∈ l, n ≤ x) →
    ∀ (i a : ℕ), l[i]? = some a → n + i ≤ a := by
  induction l with
  | nil => intro n _ _ i a h; exact absurd h (by simp)
  | cons b l ih =>
    intro n hl hn i a h
    obtain ⟨hb, hl⟩ := List.pairwise_cons.mp hl
    have hnb := hn b List.mem_cons_self
    cases i with
    | zero =>
      rw [List.getElem?_cons_zero, Option.some.injEq] at h
      omega
    | succ i =>
      rw [List.getElem?_cons_succ] at h
      have := ih (n + 1) hl (fun x hx => by have := hb x hx; omega) i a h
      omega

theorem takeWhile_boundary {α : Type*} (p : α → Bool) (l : List α) :
    (∀ i < (l.takeWhile p).length, ∀ x, l[i]? = some x → p x = true) ∧
      ∀ x, l[(l.takeWhile p).length]? = some x → p x = false := by
  induction l with
  | nil => simp
  | cons a l ih =>
    rw [List.takeWhile_cons]
    by_cases ha : p a = true
    · rw [if_pos ha, List.length_cons]
      refine ⟨fun i hi x hx => ?_, fun x hx => ih.2 x (by simpa using hx)⟩
      cases i with
      | zero =>
        rw [List.getElem?_cons_zero, Option.some.injEq] at hx
        rw [← hx, ha]
      | succ i => exact ih.1 i (by omega) x (by simpa using hx)
    · rw [if_neg ha]
      refine ⟨fun i hi => absurd hi (Nat.not_lt_zero i), fun x hx => ?_⟩
      rw [List.length_nil, List.getElem?_cons_zero, Option.some.injEq] at hx
      rw [← hx]
      simpa using ha

/-- The last start that is not past an offset covers it. -/
theorem covers_of_takeWhile (hoffset : offset < s.data.length)
    (h : (s.starts.takeWhile fun start => start ≤ offset).length = piece + 1) :
    s.covers offset piece = true := by
  obtain ⟨hbefore, hafter⟩ := takeWhile_boundary (fun start => decide (start ≤ offset)) s.starts
  rw [h] at hbefore hafter
  have hle : piece + 1 ≤ s.starts.length := by
    rw [← h]
    exact (List.takeWhile_prefix _).length_le
  have hstart := hbefore piece (by omega) _ (List.getElem?_eq_getElem (by omega))
  unfold covers
  rw [Nat.min_eq_left (by have := s.fits; omega),
    List.getElem?_eq_getElem (show piece < s.starts.length by omega),
    Option.any_some, Bool.and_eq_true]
  refine ⟨hstart, ?_⟩
  rw [decide_eq_true_eq]
  cases hnext : s.starts[piece + 1]? with
  | none => exact hoffset
  | some next =>
    have := hafter next hnext
    simpa using this

/-- **`pieceAt` finds the piece that covers an offset**, whatever the cell holds. -/
theorem pieceAt_spec (key : ℕ) (cell : ℕ × ℕ) (hoffset : offset < s.data.length) :
    ∃ piece, s.At offset piece ∧
      s.pieceAt key cell offset = some ⟨piece, offset - (s.bounds piece).1⟩ := by
  have hfits := s.fits
  have htiled := s.tiled
  unfold pieceAt
  rw [if_neg (by omega)]
  cases hkind : s.kind with
  | strings charSize =>
    simp only [Cut.Tiled, hkind] at htiled
    obtain ⟨hlen, ends, hends, hpair⟩ := htiled
    have hfound : ∃ piece, (s.stringPieceAt key cell offset).1 = some piece ∧
        s.covers offset piece = true := by
      unfold stringPieceAt
      simp only
      split
      · next h => exact ⟨cell.2, rfl, h.2⟩
      · split
        · next h => exact ⟨_, rfl, h.2⟩
        · cases hk : (s.starts.takeWhile fun start => start ≤ offset).length with
          | zero =>
            -- The first start is 0, so the search passes it.
            obtain ⟨_, hafter⟩ :=
              takeWhile_boundary (fun start => decide (start ≤ offset)) s.starts
            rw [hk] at hafter
            have hfirst : s.starts[0]? = some 0 := by
              cases hs : s.starts with
              | nil =>
                rw [hs, List.nil_append, List.cons.injEq] at hends
                omega
              | cons a l =>
                rw [hs, List.cons_append, List.cons.injEq] at hends
                rw [List.getElem?_cons_zero, hends.1]
            have := hafter 0 hfirst
            simp at this
          | succ piece => exact ⟨piece, rfl, s.covers_of_takeWhile hoffset hk⟩
    obtain ⟨piece, hpiece, hcovers⟩ := hfound
    obtain ⟨hat, hstart⟩ := s.at_of_covers hkind hcovers
    refine ⟨piece, hat, ?_⟩
    have hsmall : piece < 2 ^ 32 := by
      obtain ⟨a, b, ha, _, hbounds⟩ := bounds_strings hkind hends
        (show piece < s.starts.length by rw [hlen]; exact hat.1)
      have hle := add_le_of_pairwise (0 :: ends) 0 hpair (fun _ _ => Nat.zero_le _) piece a ha
      have hbound := s.bounds_lt hat.1
      rw [hbounds] at hbound
      omega
    simp only [if_neg (show ¬ offset ≥ 2 ^ 32 by omega), hpiece, hstart, Option.bind_some,
      if_pos hsmall, bind]
  | fixed entrySize =>
    simp only [Cut.Tiled, hkind] at htiled
    obtain ⟨hsize, hlen⟩ := htiled
    have hdiv := Nat.div_add_mod offset entrySize
    have hmod := Nat.mod_lt offset hsize
    have hlt : offset / entrySize < s.hashes.length := by
      rw [Nat.div_lt_iff_lt_mul hsize, ← hlen]
      exact hoffset
    have hle : (offset / entrySize + 1) * entrySize ≤ s.data.length := by
      rw [hlen]
      exact Nat.mul_le_mul_right _ hlt
    have hbounds : s.bounds (offset / entrySize) =
        (offset / entrySize * entrySize, offset / entrySize * entrySize + entrySize) := by
      rw [Nat.succ_mul] at hle
      simp only [Cut.bounds, hkind]
      rw [Nat.min_eq_left (by omega), Nat.min_eq_left hle]
    rw [Nat.mul_comm] at hdiv
    refine ⟨offset / entrySize, ⟨hlt, ?_, ?_⟩, ?_⟩
    · rw [hbounds]
      omega
    · rw [hbounds]
      omega
    · rw [hbounds]
      have hsmall : offset / entrySize ≤ offset := Nat.div_le_self _ _
      simp only [if_pos (show offset / entrySize < 2 ^ 32 by omega)]
      congr 2
      omega

end SplitSection

end Qld.Passes.Merge
