import Qld.Passes.Merge.Split

/-!
# Splitting partitions a section

What phase 1 of section merging promises about one section, on top of `splitParts_ok` and
`pieceAt_spec`.

* `Malformed` — what makes a section malformed; `splitParts_error_iff` — the split fails for
  these and no others;
* `pieceStart`, `pieceBytes` — the start and the bytes of a piece;
* `flatten_pieces` — the pieces, one after the other, are the data;
* `chars_piece` — a string piece is characters that are not terminators and one that is;
* `splitSection_partitions` — all of it, and that `pieceAt` finds the one piece around an
  offset whatever the per-thread cell holds.
-/

namespace Qld.Passes.Merge

/-! ### Malformed sections -/

/-- The character or entry size. -/
def MergeKind.unit : MergeKind → ℕ
  | .strings charSize => charSize
  | .fixed entrySize => entrySize

/-- The last string of the data has no terminator: there is a last character, and one of its
bytes is not zero. -/
def Unterminated : MergeKind → List UInt8 → Prop
  | .strings charSize, data => ∃ b ∈ data.drop (data.length - charSize), b ≠ 0
  | .fixed _, _ => False

/-- What makes a mergeable section malformed. -/
def Malformed (data : List UInt8) (kind : MergeKind) (alignment : ℕ) : Prop :=
  (∀ k, alignment ≠ 2 ^ k) ∨ kind.valid = false ∨ 2 ^ 32 - 1 < data.length ∨
    ¬ kind.unit ∣ data.length ∨ Unterminated kind data

theorem length_chunksExact (unit : ℕ) (data : List UInt8) :
    (chunksExact unit data).length = data.length / unit := by
  rw [chunksExact, List.length_map, List.length_range]

variable {unit : ℕ} {data : List UInt8}

theorem getElem?_chunksExact {i : ℕ} (hi : i < data.length / unit) :
    (chunksExact unit data)[i]? = some ((data.drop (i * unit)).take unit) := by
  rw [chunksExact, List.getElem?_map, List.getElem?_range hi, Option.map_some]

theorem getLast?_chunksExact (hunit : 0 < unit) (hdvd : unit ∣ data.length) (hne : data ≠ []) :
    (chunksExact unit data).getLast? = some (data.drop (data.length - unit)) := by
  obtain ⟨n, hn⟩ := hdvd
  have hpos : 0 < n := by
    rcases Nat.eq_zero_or_pos n with rfl | hpos
    · exact absurd (List.length_eq_zero_iff.mp (by simpa using hn)) hne
    · exact hpos
  have hdiv : data.length / unit = n := by rw [hn, Nat.mul_div_cancel_left _ hunit]
  have hlast : (n - 1) * unit = data.length - unit := by
    rw [hn, Nat.sub_mul, Nat.one_mul, Nat.mul_comm]
  rw [List.getLast?_eq_getElem?, length_chunksExact, hdiv,
    getElem?_chunksExact (by omega), hlast, List.take_of_length_le]
  rw [List.length_drop]
  omega

theorem isNul_eq_false_iff (c : List UInt8) : isNul c = false ↔ ∃ b ∈ c, b ≠ 0 := by
  simp [isNul]

variable {kind : MergeKind}

/-- `count_pieces` fails when the size is not a multiple of the unit or the last string has no
terminator. -/
theorem countPieces_error_iff (hvalid : kind.valid = true) (data : List UInt8) :
    (∃ e, countPieces kind data = .error e) ↔
      ¬ kind.unit ∣ data.length ∨ Unterminated kind data := by
  cases kind with
  | fixed entrySize =>
    have hsize : entrySize ≠ 0 := by simpa [MergeKind.valid] using hvalid
    rw [countPieces, if_neg hsize]
    simp only [MergeKind.unit, Unterminated, or_false, Nat.dvd_iff_mod_eq_zero]
    split <;> simp_all
  | strings charSize =>
    have hsize : 0 < charSize := by
      simp only [MergeKind.valid, Bool.or_eq_true, beq_iff_eq] at hvalid
      omega
    have hmax : max charSize 1 = charSize := by omega
    simp only [countPieces, hmax, MergeKind.unit, Unterminated]
    by_cases hdvd : charSize ∣ data.length
    · rw [if_neg (by simpa using Nat.mod_eq_zero_of_dvd hdvd)]
      simp only [hdvd, not_true_eq_false, false_or]
      rcases List.eq_nil_or_concat data with rfl | ⟨front, last, rfl⟩
      · split <;> simp [chunksExact]
      · rw [List.concat_eq_append] at *
        have hne : front ++ [last] ≠ [] := by simp
        split
        · next hone =>
          subst hone
          have hdrop : (front ++ [last]).drop ((front ++ [last]).length - 1) = [last] := by simp
          rw [hdrop, List.getLast?_concat, Option.any_some]
          by_cases hlast : last = 0 <;> simp [hlast]
        · rw [getLast?_chunksExact hsize hdvd hne, Option.any_some,
            ← isNul_eq_false_iff]
          cases isNul ((front ++ [last]).drop ((front ++ [last]).length - charSize)) <;> simp
    · rw [if_pos (fun h => hdvd (Nat.dvd_of_mod_eq_zero h))]
      simp [hdvd]

/-- **The split fails for malformed sections and no others.** -/
theorem splitParts_error_iff (hashPiece : List UInt8 → UInt64) (data : List UInt8)
    (kind : MergeKind) (alignment : ℕ) :
    (∃ e, splitParts hashPiece data kind alignment = .error e) ↔
      Malformed data kind alignment := by
  unfold splitParts Malformed
  by_cases halign : alignment.isPowerOfTwo
  · have hpow : ¬ ∀ k, alignment ≠ 2 ^ k := by
      obtain ⟨k, hk⟩ := halign
      exact fun h => h k hk
    rw [if_neg (not_not.mpr halign)]
    cases hvalid : kind.valid with
    | false =>
      simp only [Bool.not_false, if_true, true_or, or_true, iff_true]
      cases kind <;> exact ⟨_, rfl⟩
    | true =>
      by_cases hfits : data.length ≥ 2 ^ 32
      · simp only [Bool.not_true, Bool.false_eq_true, if_false, if_pos hfits]
        exact ⟨fun _ => .inr (.inr (.inl (by omega))), fun _ => ⟨_, rfl⟩⟩
      · have hcount := countPieces_error_iff hvalid data
        have hsmall : ¬ 2 ^ 32 - 1 < data.length := by omega
        simp only [Bool.not_true, Bool.false_eq_true, if_false, if_neg hfits]
        simp only [hpow, hsmall, false_or, reduceCtorEq]
        rw [← hcount]
        cases hc : countPieces kind data with
        | error e => simp [bind, Except.bind]
        | ok count => cases kind <;> simp [bind, Except.bind, pure, Except.pure]
  · rw [if_pos halign]
    have hpow : ∀ k, alignment ≠ 2 ^ k := fun k hk => halign ⟨k, hk⟩
    exact ⟨fun _ => .inl hpow, fun _ => ⟨_, rfl⟩⟩

theorem splitSection_error_iff (hashPiece : List UInt8 → UInt64) (data : List UInt8)
    (kind : MergeKind) (alignment : ℕ) :
    (∃ e, splitSection hashPiece data kind alignment = .error e) ↔
      Malformed data kind alignment := by
  rw [← splitParts_error_iff hashPiece]
  unfold splitSection
  split
  · next e he => simp [he]
  · next c hashes hok => simp [hok]

variable {hashPiece : List UInt8 → UInt64} {alignment : ℕ}

/-- What `splitSection` accepts is what `splitParts` computes. -/
theorem splitSection_ok {s : SplitSection hashPiece}
    (h : splitSection hashPiece data kind alignment = .ok s) :
    splitParts hashPiece data kind alignment = .ok (s.toCut, s.hashes) := by
  unfold splitSection at h
  split at h
  · exact absurd h (by simp)
  · next c hashes hok =>
    rw [Except.ok.injEq] at h
    rw [hok, ← h]

/-! ### The characters of a string -/

/-- A character is a terminator when all its bytes are zero, whatever its size. -/
theorem nulFlags_eq (unit : ℕ) (data : List UInt8) :
    nulFlags unit data = (chunksExact unit data).map isNul := by
  unfold nulFlags
  split
  · next hone =>
    subst hone
    apply List.ext_getElem?
    intro i
    rw [List.getElem?_map, List.getElem?_map]
    by_cases hi : i < data.length
    · rw [getElem?_chunksExact (by simpa using hi), List.getElem?_eq_getElem hi, Nat.mul_one,
        List.drop_eq_getElem_cons hi, List.take_succ_cons, List.take_zero]
      simp [isNul]
    · rw [List.getElem?_eq_none (by omega),
        List.getElem?_eq_none (by rw [length_chunksExact]; simpa using hi)]
      rfl
  · rfl

/-- The characters of a part of the data that begins and ends between characters. -/
theorem chunksExact_slice (hunit : 0 < unit) (data : List UInt8) {m n : ℕ}
    (hle : (m + n) * unit ≤ data.length) :
    chunksExact unit ((data.drop (m * unit)).take (n * unit)) =
      ((chunksExact unit data).drop m).take n := by
  have hlen : ((data.drop (m * unit)).take (n * unit)).length = n * unit := by
    rw [List.length_take, List.length_drop]
    rw [Nat.add_mul] at hle
    omega
  have hchars : m + n ≤ data.length / unit := (Nat.le_div_iff_mul_le hunit).mpr hle
  apply List.ext_getElem?
  intro i
  by_cases hi : i < n
  · have hchar : (i + 1) * unit ≤ n * unit := Nat.mul_le_mul_right _ hi
    rw [Nat.succ_mul] at hchar
    rw [getElem?_chunksExact (by rw [hlen, Nat.mul_div_cancel _ hunit]; exact hi),
      List.getElem?_take_of_lt hi, List.getElem?_drop, getElem?_chunksExact (by omega),
      List.drop_take, List.take_take, List.drop_drop, Nat.add_mul,
      Nat.min_eq_left (by omega)]
  · rw [List.getElem?_eq_none (by rw [length_chunksExact, hlen, Nat.mul_div_cancel _ hunit]; omega),
      List.getElem?_eq_none (by rw [List.length_take]; omega)]

/-- Between two neighbouring ends there are characters that are no terminators, and then one
that is. -/
theorem endsOf_between (hunit : 0 < unit) (flags : List Bool) :
    ∀ (position piece a b : ℕ), (position :: endsOf unit position flags)[piece]? = some a →
      (position :: endsOf unit position flags)[piece + 1]? = some b →
      ∃ before k after, flags = before ++ (List.replicate k false ++ true :: after) ∧
        a = position + before.length * unit ∧ b = a + (k + 1) * unit := by
  induction flags with
  | nil => intro position piece a b _ hb; simp [endsOf] at hb
  | cons flag flags ih =>
    intro position piece a b ha hb
    cases flag with
    | true =>
      rw [endsOf] at ha hb
      rw [List.getElem?_cons_succ] at hb
      cases piece with
      | zero =>
        rw [List.getElem?_cons_zero, Option.some.injEq] at ha hb
        exact ⟨[], 0, flags, rfl, by simp [ha], by omega⟩
      | succ piece =>
        rw [List.getElem?_cons_succ] at ha
        obtain ⟨before, k, after, rfl, rfl, rfl⟩ := ih (position + unit) piece a b ha hb
        refine ⟨true :: before, k, after, rfl, ?_, rfl⟩
        rw [List.length_cons, Nat.succ_mul]
        omega
    | false =>
      rw [endsOf] at ha hb
      cases piece with
      | zero =>
        rw [List.getElem?_cons_zero, Option.some.injEq] at ha
        obtain ⟨before, k, after, rfl, hbefore, rfl⟩ :=
          ih (position + unit) 0 (position + unit) b rfl (by simpa using hb)
        have hnil : before.length * unit = 0 := by omega
        have hnil : before = [] := by
          rcases Nat.mul_eq_zero.mp hnil with h | h
          · exact List.length_eq_zero_iff.mp h
          · omega
        subst hnil
        refine ⟨[], k + 1, after, ?_, by simp [ha], ?_⟩
        · simp [List.replicate_succ]
        · rw [Nat.succ_mul (k + 1)]
          omega
      | succ piece =>
        rw [List.getElem?_cons_succ] at ha hb
        obtain ⟨before, k, after, rfl, rfl, rfl⟩ := ih (position + unit) (piece + 1) a b
          (by rw [List.getElem?_cons_succ]; exact ha) (by rw [List.getElem?_cons_succ]; exact hb)
        refine ⟨false :: before, k, after, rfl, ?_, rfl⟩
        rw [List.length_cons, Nat.succ_mul]
        omega

/-- The pieces between ascending ends, one after the other. -/
theorem flatMap_between (data : List UInt8) (n : ℕ) (f : ℕ → ℕ)
    (hmono : ∀ i < n, f i ≤ f (i + 1)) :
    (List.range n).flatMap (fun i => (data.drop (f i)).take (f (i + 1) - f i)) =
      (data.drop (f 0)).take (f n - f 0) := by
  induction n with
  | zero => simp
  | succ n ih =>
    have hle : ∀ i, i ≤ n → f 0 ≤ f i := by
      intro i
      induction i with
      | zero => intro _; exact le_rfl
      | succ i hi => exact fun h => (hi (by omega)).trans (hmono i (by omega))
    have h0 := hle n le_rfl
    have hn := hmono n (by omega)
    rw [List.range_succ, List.flatMap_append, ih fun i hi => hmono i (by omega),
      List.flatMap_singleton]
    have hdrop : data.drop (f n) = (data.drop (f 0)).drop (f n - f 0) := by
      rw [List.drop_drop, Nat.add_sub_cancel' h0]
    rw [hdrop, show f (n + 1) - f 0 = (f n - f 0) + (f (n + 1) - f n) by omega, List.take_add]

/-! ### The pieces -/

namespace SplitSection

variable {hashPiece : List UInt8 → UInt64} (s : SplitSection hashPiece)

/-- Start offset of `piece` in the section, or `none` if there is no such piece. -/
def pieceStart (piece : ℕ) : Option ℕ :=
  if piece ≥ s.numPieces then none else some (s.bounds piece).1

/-- The bytes of `piece`, or `none` if there is no such piece. -/
def pieceBytes (piece : ℕ) : Option (List UInt8) :=
  if piece ≥ s.numPieces then none else some (s.bytesOf piece)

/-- Where piece `i` starts, and where the last one ends: the entries of `starts` and then the
length of the data, or multiples of the entry size. -/
theorem exists_boundaries : ∃ f : ℕ → ℕ, f 0 = 0 ∧ f s.numPieces = s.data.length ∧
    ∀ piece < s.numPieces, s.bounds piece = (f piece, f (piece + 1)) := by
  have htiled := s.tiled
  cases hkind : s.kind with
  | strings charSize =>
    simp only [Cut.Tiled, hkind] at htiled
    obtain ⟨hlen, ends, hends, _⟩ := htiled
    refine ⟨fun i => ((0 :: ends)[i]?).getD 0, rfl, ?_, ?_⟩
    · show ((0 :: ends)[s.numPieces]?).getD 0 = s.data.length
      rw [← hends, numPieces, ← hlen, List.getElem?_append_right le_rfl, Nat.sub_self]
      rfl
    · intro piece hpiece
      obtain ⟨a, b, ha, hb, hbounds⟩ := bounds_strings hkind hends
        (show piece < s.starts.length by rw [hlen]; exact hpiece)
      show s.bounds piece = (((0 :: ends)[piece]?).getD 0, ((0 :: ends)[piece + 1]?).getD 0)
      rw [ha, hb, hbounds]
      rfl
  | fixed entrySize =>
    simp only [Cut.Tiled, hkind] at htiled
    obtain ⟨hsize, hlen⟩ := htiled
    refine ⟨fun i => i * entrySize, Nat.zero_mul _, hlen.symm, ?_⟩
    intro piece hpiece
    have hle : (piece + 1) * entrySize ≤ s.data.length := by
      rw [hlen]
      exact Nat.mul_le_mul_right _ hpiece
    have hsucc := Nat.succ_mul piece entrySize
    simp only [Cut.bounds, hkind, Nat.succ_eq_add_one] at hsucc ⊢
    rw [Nat.min_eq_left (by omega), Nat.min_eq_left (by omega), hsucc]

/-- **The pieces, one after the other, are the data.** -/
theorem flatten_pieces : ((List.range s.numPieces).filterMap s.pieceBytes).flatten = s.data := by
  obtain ⟨f, hzero, hlast, hbounds⟩ := s.exists_boundaries
  have hpieces : (List.range s.numPieces).filterMap s.pieceBytes =
      (List.range s.numPieces).map fun i => (s.data.drop (f i)).take (f (i + 1) - f i) := by
    rw [← List.filterMap_eq_map]
    refine List.filterMap_congr fun piece hpiece => ?_
    rw [List.mem_range] at hpiece
    rw [pieceBytes, if_neg (by omega), s.bytesOf_eq hpiece, hbounds piece hpiece]
    rfl
  have hmono : ∀ i < s.numPieces, f i ≤ f (i + 1) := by
    intro i hi
    have := (s.bounds_lt hi).1
    rw [hbounds i hi] at this
    exact this.le
  rw [hpieces, ← List.flatMap_def, flatMap_between _ _ _ hmono, hzero, hlast, List.drop_zero,
    Nat.sub_zero, List.take_length]

theorem length_bytesOf_fixed {entrySize piece : ℕ} (hkind : s.kind = .fixed entrySize)
    (hpiece : piece < s.numPieces) : (s.bytesOf piece).length = entrySize := by
  have htiled := s.tiled
  simp only [Cut.Tiled, hkind] at htiled
  have hle : (piece + 1) * entrySize ≤ s.data.length := by
    rw [htiled.2]
    exact Nat.mul_le_mul_right _ hpiece
  rw [Nat.succ_mul] at hle
  rw [s.length_bytesOf hpiece]
  simp only [Cut.bounds, hkind]
  omega

/-- **`pieceAt` finds the one piece around an offset.** -/
theorem pieceAt_unique (key : ℕ) (cell : ℕ × ℕ) {offset : ℕ} (hoffset : offset < s.data.length) :
    ∃ found, s.pieceAt key cell offset = some found ∧
      ∀ r : PieceRef, (∃ start bytes, s.pieceStart r.piece = some start ∧
        s.pieceBytes r.piece = some bytes ∧ start + r.addend = offset ∧
          r.addend < bytes.length) ↔ r = found := by
  obtain ⟨piece, ⟨hpiece, hle, hlt⟩, hfound⟩ := s.pieceAt_spec key cell hoffset
  refine ⟨_, hfound, fun r => ⟨?_, ?_⟩⟩
  · rintro ⟨start, bytes, hstart, hbytes, hsum, hadd⟩
    unfold pieceStart at hstart
    unfold pieceBytes at hbytes
    by_cases hr : r.piece ≥ s.numPieces
    · rw [if_pos hr] at hstart
      exact absurd hstart (by simp)
    · rw [if_neg hr, Option.some.injEq] at hstart hbytes
      have hr : r.piece < s.numPieces := by omega
      rw [← hbytes, s.length_bytesOf hr] at hadd
      obtain ⟨f, _, _, hbounds⟩ := s.exists_boundaries
      have hmono : ∀ i j, i ≤ j → j ≤ s.numPieces → f i ≤ f j := by
        intro i j hij
        induction hij with
        | refl => exact fun _ => le_rfl
        | step _ ih =>
          intro hj
          have hlast : _ < s.numPieces := hj
          have hstep := (s.bounds_lt hlast).1
          rw [hbounds _ hlast] at hstep
          exact (ih hlast.le).trans (Nat.le_of_lt hstep)
      rw [hbounds _ hr] at hstart hadd
      rw [hbounds _ hpiece] at hle hlt ⊢
      simp only at hstart hadd hle hlt ⊢
      -- Two pieces around one offset are the same piece.
      have hsame : r.piece = piece := by
        rcases Nat.lt_trichotomy r.piece piece with h | h | h
        · have := hmono (r.piece + 1) piece h (by omega)
          omega
        · exact h
        · have := hmono (piece + 1) r.piece h (by omega)
          omega
      cases r with
      | mk rpiece raddend =>
        simp only at hsame hsum hstart
        subst hsame
        rw [PieceRef.mk.injEq]
        exact ⟨rfl, by omega⟩
  · rintro rfl
    refine ⟨(s.bounds piece).1, s.bytesOf piece, ?_, ?_, by simp only; omega, ?_⟩
    · rw [pieceStart, if_neg (by simp only; omega)]
    · rw [pieceBytes, if_neg (by simp only; omega)]
    · rw [s.length_bytesOf hpiece]
      simp only
      omega

end SplitSection

/-- The characters of a string: none is a terminator but the last one. -/
def EndsString (charSize : ℕ) (bytes : List UInt8) : Prop :=
  charSize ∣ bytes.length ∧
    ∃ k, (chunksExact charSize bytes).map isNul = List.replicate k false ++ [true]

/-- **A string piece has one terminator, its last character.** -/
theorem endsString_piece {charSize : ℕ} {s : SplitSection hashPiece}
    (h : splitSection hashPiece data (.strings charSize) alignment = .ok s) {piece : ℕ}
    (hpiece : piece < s.numPieces) : EndsString charSize (s.bytesOf piece) := by
  have hparts := splitSection_ok h
  obtain ⟨hdata, hkind, _, hvalid, _, htiled, _⟩ := splitParts_ok hparts
  have hsize : 0 < charSize := by
    simp only [MergeKind.valid, Bool.or_eq_true, beq_iff_eq] at hvalid
    omega
  simp only [Cut.Tiled, hkind] at htiled
  -- The boundaries of the pieces are the ends of the strings.
  have hends : s.starts ++ [s.data.length] = 0 :: stringEnds charSize data := by
    unfold splitParts at hparts
    split at hparts
    · exact absurd hparts (by simp)
    split at hparts
    · exact absurd hparts (by simp)
    split at hparts
    · exact absurd hparts (by simp)
    cases hcount : countPieces (.strings charSize) data with
    | error e => rw [hcount] at hparts; exact absurd hparts (by simp [bind, Except.bind])
    | ok count =>
      rw [hcount] at hparts
      simp only [bind, Except.bind, pure, Except.pure, Except.ok.injEq, Prod.mk.injEq] at hparts
      rw [← hparts.1]
      simp only [splitStrings_starts]
      exact (starts_append hsize hcount).2
  obtain ⟨a, b, ha, hb, hbounds⟩ := bounds_strings hkind hends
    (show piece < s.starts.length by rw [htiled.1]; exact hpiece)
  obtain ⟨before, k, after, hflags, hstart, hstop⟩ := endsOf_between hsize _ 0 piece a b ha hb
  rw [Nat.zero_add] at hstart
  have hbytes : s.bytesOf piece =
      (data.drop (before.length * charSize)).take ((k + 1) * charSize) := by
    rw [s.bytesOf_eq hpiece, hbounds, hdata]
    simp only
    rw [hstop, Nat.add_sub_cancel_left, hstart]
  have hle : (before.length + (k + 1)) * charSize ≤ data.length := by
    have := (s.bounds_lt hpiece).2
    rw [hbounds, hdata] at this
    simp only at this
    rw [Nat.add_mul]
    omega
  refine ⟨?_, k, ?_⟩
  · rw [s.length_bytesOf hpiece, hbounds]
    simp only
    rw [hstop, Nat.add_sub_cancel_left]
    exact Nat.dvd_mul_left _ _
  · rw [hbytes, chunksExact_slice hsize data hle, List.map_take, List.map_drop, ← nulFlags_eq,
      hflags, List.drop_left]
    have hfront : (List.replicate k false ++ true :: after) =
        (List.replicate k false ++ [true]) ++ after := by simp
    rw [hfront, List.take_left' (by simp)]

/-- **Splitting a section (proved).**  It fails exactly for malformed sections.  Otherwise the
pieces partition the data in order, each is one string or one entry, and a lookup finds the piece
around an offset, whatever the per-thread cell holds. -/
theorem splitSection_partitions (hashPiece : List UInt8 → UInt64) (data : List UInt8)
    (kind : MergeKind) (alignment : ℕ) :
    ((∃ e, splitSection hashPiece data kind alignment = .error e) ↔
      Malformed data kind alignment) ∧
    ∀ s, splitSection hashPiece data kind alignment = .ok s →
      ((List.range s.numPieces).filterMap s.pieceBytes).flatten = data ∧
      (∀ piece bytes, s.pieceBytes piece = some bytes →
        match kind with
        | .strings charSize => EndsString charSize bytes
        | .fixed entrySize => bytes.length = entrySize) ∧
      ∀ key cell offset, offset < data.length →
        ∃ found, s.pieceAt key cell offset = some found ∧
          ∀ r : PieceRef, (∃ start bytes, s.pieceStart r.piece = some start ∧
            s.pieceBytes r.piece = some bytes ∧ start + r.addend = offset ∧
              r.addend < bytes.length) ↔ r = found := by
  refine ⟨splitSection_error_iff hashPiece data kind alignment, fun s hs => ?_⟩
  obtain ⟨hdata, hkind, _⟩ := splitParts_ok (splitSection_ok hs)
  refine ⟨by rw [s.flatten_pieces, hdata], ?_, ?_⟩
  · intro piece bytes hbytes
    unfold SplitSection.pieceBytes at hbytes
    split at hbytes
    · exact absurd hbytes (by simp)
    · next hpiece =>
      rw [Option.some.injEq] at hbytes
      subst hbytes
      cases kind with
      | strings charSize => exact endsString_piece hs (by omega)
      | fixed entrySize => exact s.length_bytesOf_fixed hkind (by omega)
  · intro key cell offset hoffset
    exact s.pieceAt_unique key cell (by rw [hdata]; exact hoffset)

/-- Two strings, looked up through a cell that another section at this address left. -/
theorem splitSection_partitions_pair :
    ∃ s, splitSection (fun _ => 0) [102, 0, 98, 0] (.strings 1) 1 = .ok s ∧
      ((List.range s.numPieces).filterMap s.pieceBytes).flatten = [102, 0, 98, 0] ∧
      ∃ found, s.pieceAt 7 (7, 5) 2 = some found := by
  have hok : (splitSection (fun _ => 0) [102, 0, 98, 0] (.strings 1) 1).isOk = true := by decide
  cases hs : splitSection (fun _ => 0) [102, 0, 98, 0] (.strings 1) 1 with
  | error e => rw [hs] at hok; exact absurd hok (by simp [Except.isOk, Except.toBool])
  | ok s =>
    obtain ⟨hflatten, _, hlookup⟩ := (splitSection_partitions _ _ _ _).2 s hs
    obtain ⟨found, hfound, _⟩ := hlookup 7 (7, 5) 2 (by decide)
    exact ⟨s, rfl, hflatten, found, hfound⟩

end Qld.Passes.Merge
