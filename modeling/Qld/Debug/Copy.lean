import Qld.Lib.Outcome
import Qld.Lib.Segments
import Qld.Lib.Word64

/-!
# Match copying

A match of the decoders repeats output that is `distance` bytes back; it may overlap itself.  Short
matches are copied a word at a time, and long ones in runs.  A slice has less than `2 ^ 63` bytes.

* `copyMatch` — copies a match, with the buffer it leaves;
* `byteCopy` — the copy a byte at a time;
* `overwrite_byteCopy` — a run that repeats the bytes before it continues the copy;
* `copiesMatch_iff` — when the copy is right.
-/

namespace Qld.Debug.Copy

open Qld.Lib

/-! ### The copy -/

/-- `usize::checked_sub`. -/
def checkedSub (a b : ℕ) : Option ℕ := if b ≤ a then some (a - b) else none

/-- `slice.get(start..stop)`. -/
def get (out : List UInt8) (start stop : ℕ) : Option (List UInt8) :=
  if start ≤ stop ∧ stop ≤ out.length then some ((out.drop start).take (stop - start)) else none

/-- `slice.copy_within(start..stop, dest)`. -/
def copyWithin (out : List UInt8) (start stop dest : ℕ) : Outcome Empty (List UInt8) :=
  match get out start stop with
  | some bytes =>
    if dest + bytes.length ≤ out.length then .ok (overwrite out dest bytes) else .error .panic
  | none => .error .panic

/-- Copies words from `s` on to `d` on, until `stop` is reached. -/
def wordLoop : ℕ → List UInt8 → ℕ → ℕ → ℕ → Outcome Empty (Option Unit × List UInt8)
  | 0, _, _, _, _ => .error .endless
  | fuel + 1, out, s, d, stop =>
    match get out s (wrappingAdd s 8), get out d (wrappingAdd d 8) with
    | some word, some _ =>
      let out := overwrite out d word
      let s := wrappingAdd s 8
      let d := wrappingAdd d 8
      if stop ≤ d then .ok (some (), out) else wordLoop fuel out s d stop
    | _, _ => .ok (none, out)

/-- Copies runs from `src` on, each of whole periods, until `length` bytes are done. -/
def periodLoop : ℕ → List UInt8 → ℕ → ℕ → ℕ → ℕ → ℕ → Outcome Empty (List UInt8)
  | 0, _, _, _, _, _, _ => .error .endless
  | fuel + 1, out, src, o, distance, length, done =>
    if done < length then
      let n := min (wrappingSub length done) (wrappingAdd distance done)
      (copyWithin out src (wrappingAdd src n) (wrappingAdd o done)).bind fun out =>
        periodLoop fuel out src o distance length (wrappingAdd done n)
    else .ok out

/-- Copies a match to position `o`.  The position after it, and the buffer. -/
def copyMatch (out : List UInt8) (o distance length : ℕ) :
    Outcome Empty (Option ℕ × List UInt8) :=
  match checkedSub o distance, checkedAdd o length with
  | some src, some stop =>
    if distance = 0 ∨ out.length < stop then .ok (none, out)
    else if 8 ≤ distance ∧ length ≤ 64 ∧ wrappingAdd stop 8 ≤ out.length then
      (wordLoop (length + 1) out src o stop).map fun copied =>
        (copied.1.map fun _ => stop, copied.2)
    else if length ≤ distance then
      (copyWithin out src (wrappingAdd src length) o).map fun out => (some stop, out)
    else if distance = 1 then
      match out[src]?, get out o stop with
      | some byte, some slot =>
        .ok (some stop, overwrite out o (List.replicate slot.length byte))
      | _, _ => .ok (none, out)
    else
      (periodLoop (length + 1) out src o distance length 0).map fun out => (some stop, out)
  | _, _ => .ok (none, out)

/-! ### A byte at a time -/

/-- The copy a byte at a time. -/
def byteCopy (out : List UInt8) (o distance : ℕ) : ℕ → List UInt8
  | 0 => out
  | i + 1 =>
    let out := byteCopy out o distance i
    out.set (o + i) (out.getD (o + i - distance) 0)

/-- The match lies in the buffer, and so do the bytes it repeats. -/
def InBuffer (out : List UInt8) (o distance length : ℕ) : Prop :=
  1 ≤ distance ∧ distance ≤ o ∧ o + length ≤ out.length

/-- What a match leaves: the copy, with at most seven bytes written past it. -/
structure Copied (out copied : List UInt8) (o distance length : ℕ) : Prop where
  length_eq : copied.length = out.length
  copy : ∀ i < length, copied[o + i]? = (byteCopy out o distance length)[o + i]?
  before : ∀ k < o, copied[k]? = out[k]?
  after : ∀ k, o + length + 7 ≤ k → copied[k]? = out[k]?

/-- The match is copied if it lies in the buffer, and is refused otherwise. -/
def CopiesMatch (out : List UInt8) (o distance length : ℕ) : Prop :=
  ∃ result copied, copyMatch out o distance length = .ok (result, copied) ∧
    (result = some (o + length) ↔ InBuffer out o distance length) ∧
    (InBuffer out o distance length → Copied out copied o distance length) ∧
    (¬InBuffer out o distance length → result = none)

/-- A word is written for an empty match, and its last byte is another one. -/
def Overshoots (out : List UInt8) (o distance length : ℕ) : Prop :=
  length = 0 ∧ 8 ≤ distance ∧ distance ≤ o ∧ o + 8 ≤ out.length ∧
    out[o - distance + 7]? ≠ out[o + 7]?

variable {out : List UInt8} {o distance : ℕ}

@[simp] theorem length_byteCopy (n : ℕ) : (byteCopy out o distance n).length = out.length := by
  induction n with
  | zero => rfl
  | succ n ih => rw [byteCopy, List.length_set, ih]

variable {n a b length : ℕ}

/-- The copy repeats the `distance` bytes before it. -/
theorem getElem?_byteCopy (out : List UInt8) (hpos : 1 ≤ distance) (hsrc : distance ≤ o)
    (hfits : o + n ≤ out.length) (k : ℕ) :
    (byteCopy out o distance n)[k]? =
      if o ≤ k ∧ k < o + n then out[o - distance + (k - o) % distance]? else out[k]? := by
  induction n generalizing k with
  | zero => rw [byteCopy, if_neg (by omega)]
  | succ n ih =>
    have ih := ih (by omega)
    have hlen : (byteCopy out o distance n).length = out.length := length_byteCopy n
    -- The byte that is repeated was copied itself, or stands before the copy.
    have hbyte : (byteCopy out o distance n)[o + n - distance]? =
        out[o - distance + n % distance]? := by
      rw [ih]
      by_cases hn : n < distance
      · rw [if_neg (by omega), Nat.mod_eq_of_lt hn]
        congr 1
        omega
      · rw [if_pos (by omega)]
        have hmod : (o + n - distance - o) % distance = n % distance := by
          rw [Nat.mod_eq_sub_mod (Nat.le_of_not_lt hn)]
          congr 1
          omega
        rw [hmod]
    rw [byteCopy, List.getElem?_set]
    by_cases hk : o + n = k
    · subst hk
      have hlt : o + n - distance < (byteCopy out o distance n).length := by omega
      rw [if_pos rfl, if_pos (by omega), if_pos (by omega), Nat.add_sub_cancel_left, ← hbyte,
        List.getD_eq_getElem?_getD, List.getElem?_eq_getElem hlt, Option.getD_some]
    · rw [if_neg hk, ih]
      by_cases hin : o ≤ k ∧ k < o + n
      · rw [if_pos hin, if_pos (by omega)]
      · rw [if_neg hin, if_neg (by omega)]

/-- **A run that repeats the bytes before it continues the copy.** -/
theorem overwrite_byteCopy (out : List UInt8) (hpos : 1 ≤ distance) (hsrc : distance ≤ o) (m : ℕ)
    (bytes : List UInt8) (hfits : o + m + bytes.length ≤ out.length)
    (hbytes : ∀ t < bytes.length, bytes[t]? = out[o - distance + (m + t) % distance]?) :
    overwrite (byteCopy out o distance m) (o + m) bytes =
      byteCopy out o distance (m + bytes.length) := by
  apply List.ext_getElem?
  intro k
  rw [getElem?_overwrite (by rw [length_byteCopy]; exact hfits),
    getElem?_byteCopy out hpos hsrc (by omega), getElem?_byteCopy out hpos hsrc (by omega)]
  by_cases hrun : o + m ≤ k ∧ k < o + m + bytes.length
  · rw [if_pos hrun, if_pos (by omega), hbytes _ (by omega)]
    congr 3
    omega
  · rw [if_neg hrun]
    by_cases hin : o ≤ k ∧ k < o + m
    · rw [if_pos hin, if_pos (by omega)]
    · rw [if_neg hin, if_neg (by omega)]

/-! ### Runs -/

theorem get_eq_some (cur : List UInt8) {start : ℕ} (h : start + n ≤ cur.length) :
    get cur start (start + n) = some ((cur.drop start).take n) := by
  rw [get, if_pos ⟨by omega, h⟩, Nat.add_sub_cancel_left]

section

variable (hpos : 1 ≤ distance) (hsrc : distance ≤ o)

include hpos hsrc

/-- What is read `m` bytes into the copy, or at its source, repeats the bytes before the copy. -/
theorem getElem?_run {m s : ℕ} (hfits : o + m ≤ out.length) (hrun : s + n ≤ distance + m) {t : ℕ}
    (ht : t < n) :
    (((byteCopy out o distance m).drop (o - distance + s)).take n)[t]? =
      out[o - distance + (s + t) % distance]? := by
  rw [List.getElem?_take, if_pos ht, List.getElem?_drop, getElem?_byteCopy out hpos hsrc hfits]
  by_cases hlt : s + t < distance
  · rw [if_neg (by omega), Nat.mod_eq_of_lt hlt]
    congr 1
    omega
  · have hmod : (o - distance + s + t - o) % distance = (s + t) % distance := by
      rw [Nat.mod_eq_sub_mod (Nat.le_of_not_lt hlt)]
      congr 1
      omega
    rw [if_pos (by omega), hmod]

/-- A run read from the copy continues it when it starts whole periods back. -/
theorem overwrite_run (m s n : ℕ) (hfits : o + m + n ≤ out.length) (hrun : s + n ≤ distance + m)
    (hperiod : s % distance = m % distance) :
    overwrite (byteCopy out o distance m) (o + m)
      (((byteCopy out o distance m).drop (o - distance + s)).take n) =
        byteCopy out o distance (m + n) := by
  have hlen : (((byteCopy out o distance m).drop (o - distance + s)).take n).length = n := by
    rw [List.length_take, List.length_drop, length_byteCopy]
    omega
  have hrun := overwrite_byteCopy out hpos hsrc m _ (by rw [hlen]; exact hfits)
    fun t ht => by
      rw [hlen] at ht
      rw [getElem?_run hpos hsrc (by omega) hrun ht, Nat.add_mod, hperiod, ← Nat.add_mod]
  rw [hrun, hlen]

theorem copyWithin_run (m s n : ℕ) (hfits : o + m + n ≤ out.length) (hrun : s + n ≤ distance + m)
    (hperiod : s % distance = m % distance) :
    copyWithin (byteCopy out o distance m) (o - distance + s) (o - distance + s + n) (o + m) =
      .ok (byteCopy out o distance (m + n)) := by
  have hfit : o - distance + s + n ≤ (byteCopy out o distance m).length := by
    rw [length_byteCopy]
    omega
  have hlen : (((byteCopy out o distance m).drop (o - distance + s)).take n).length = n := by
    rw [List.length_take, List.length_drop, length_byteCopy]
    omega
  rw [copyWithin, get_eq_some _ hfit]
  simp only [hlen]
  rw [if_pos (by rw [length_byteCopy]; exact hfits), overwrite_run hpos hsrc m s n hfits hrun hperiod]

end

/-! ### The strategies -/

theorem wrappingAdd_of_le (h : a + b ≤ n) (hn : n < 2 ^ 63) :
    wrappingAdd a b = a + b := Nat.mod_eq_of_lt (by omega)

/-- The words that are written for a match, in bytes. -/
def written (length : ℕ) : ℕ := max 8 ((length + 7) / 8 * 8)

/-- **Words.** -/
theorem wordLoop_eq (hlen : out.length < 2 ^ 63) (hword : 8 ≤ distance) (hsrc : distance ≤ o)
    (hfits : o + length + 8 ≤ out.length) (fuel m : ℕ) (hm : m % 8 = 0) (hmlt : m < length ∨ m = 0)
    (hfuel : length < fuel + m) :
    wordLoop fuel (byteCopy out o distance m) (o - distance + m) (o + m) (o + length) =
      .ok (some (), byteCopy out o distance (written length)) := by
  induction fuel generalizing m with
  | zero => omega
  | succ fuel ih =>
    have hcur : (byteCopy out o distance m).length = out.length := length_byteCopy m
    have hs : wrappingAdd (o - distance + m) 8 = o - distance + m + 8 :=
      wrappingAdd_of_le (by omega) hlen
    have hd : wrappingAdd (o + m) 8 = o + m + 8 := wrappingAdd_of_le (by omega) hlen
    have hrun := overwrite_run (by omega) hsrc m m 8 (by omega : o + m + 8 ≤ out.length)
      (by omega) rfl
    rw [wordLoop, hs, hd, get_eq_some _ (by omega), get_eq_some _ (by omega)]
    simp only [hrun]
    by_cases hdone : length ≤ m + 8
    · rw [if_pos (by omega)]
      have hend : m + 8 = written length := by
        rw [written]
        omega
      rw [hend]
    · rw [if_neg (by omega), Nat.add_assoc, Nat.add_assoc]
      exact ih _ (by omega) (.inl (by omega)) (by omega)

/-- **Whole periods**: the run doubles. -/
theorem periodLoop_eq (hlen : out.length < 2 ^ 63) (hpos : 1 ≤ distance) (hsrc : distance ≤ o)
    (hfits : o + length ≤ out.length) (fuel done : ℕ) (hdone : done ≤ length)
    (hperiod : done < length → done % distance = 0) (hfuel : length < fuel + done) :
    periodLoop fuel (byteCopy out o distance done) (o - distance) o distance length done =
      .ok (byteCopy out o distance length) := by
  induction fuel generalizing done with
  | zero => omega
  | succ fuel ih =>
    rw [periodLoop]
    by_cases hlt : done < length
    · have hsub : wrappingSub length done = length - done := by
        rw [wrappingSub]
        omega
      have hadd : wrappingAdd distance done = distance + done := wrappingAdd_of_le (by omega) hlen
      rw [if_pos hlt, hsub, hadd]
      generalize hn : min (length - done) (distance + done) = n
      have hstop : wrappingAdd (o - distance) n = o - distance + n :=
        wrappingAdd_of_le (by omega) hlen
      have hdest : wrappingAdd o done = o + done := wrappingAdd_of_le (by omega) hlen
      have hnext : wrappingAdd done n = done + n := wrappingAdd_of_le (by omega) hlen
      have hrun := copyWithin_run hpos hsrc done 0 n (by omega : o + done + n ≤ out.length)
        (by omega) (by rw [Nat.zero_mod, hperiod hlt])
      simp only [Nat.add_zero] at hrun
      simp only [hstop, hdest, hnext, hrun, Except.bind]
      refine ih _ (by omega) (fun hmore => ?_) (by omega)
      -- More is left only after a run of whole periods.
      have hwhole : n = distance + done := by omega
      rw [hwhole, Nat.add_left_comm, Nat.add_mod_left, Nat.add_mod, hperiod hlt]
      rfl
    · have heq : done = length := by omega
      rw [if_neg hlt, heq]

theorem checkedSub_of_le (h : b ≤ a) : checkedSub a b = some (a - b) := if_pos h

theorem checkedAdd_of_le (h : a + b ≤ n) (hn : n < 2 ^ 63) :
    checkedAdd a b = some (a + b) := if_pos (by omega)

/-- The match is short, far back and far from the end. -/
def ByWords (out : List UInt8) (o distance length : ℕ) : Prop :=
  8 ≤ distance ∧ length ≤ 64 ∧ o + length + 8 ≤ out.length

instance (out : List UInt8) (o distance length : ℕ) : Decidable (ByWords out o distance length) :=
  inferInstanceAs (Decidable (_ ∧ _ ∧ _))

/-- **Every strategy is the copy a byte at a time**, up to the end of the last word. -/
theorem copyMatch_of_inBuffer (hlen : out.length < 2 ^ 63) (h : InBuffer out o distance length) :
    copyMatch out o distance length = .ok (some (o + length), byteCopy out o distance
      (if ByWords out o distance length then written length else length)) := by
  obtain ⟨hpos, hsrc, hfits⟩ := h
  rw [copyMatch, checkedSub_of_le hsrc, checkedAdd_of_le hfits hlen]
  simp only
  rw [if_neg (by omega)]
  have hword : (8 ≤ distance ∧ length ≤ 64 ∧ wrappingAdd (o + length) 8 ≤ out.length) ↔
      ByWords out o distance length := by
    rw [ByWords, wrappingAdd]
    omega
  simp only [hword]
  by_cases hby : ByWords out o distance length
  · have hloop := wordLoop_eq hlen hby.1 hsrc hby.2.2 (length + 1) 0 rfl (.inr rfl) (by omega)
    simp only [byteCopy, Nat.add_zero] at hloop
    rw [if_pos hby, if_pos hby, hloop]
    rfl
  · rw [if_neg hby, if_neg hby]
    split
    · next hle =>
      -- The source ends before the match begins.
      have hrun := copyWithin_run hpos hsrc 0 0 length (by omega : o + 0 + length ≤ out.length)
        (by omega) rfl
      simp only [byteCopy, Nat.add_zero, Nat.zero_add] at hrun
      rw [wrappingAdd_of_le (by omega) hlen, hrun]
      rfl
    split
    · next hone =>
      -- One byte fills the match.
      subst hone
      have hlt : o - 1 < out.length := by omega
      have hrun := overwrite_byteCopy out (Nat.le_refl 1) hsrc 0
        (List.replicate length (out[o - 1])) (by rw [List.length_replicate]; omega)
        fun t ht => by
          rw [List.length_replicate] at ht
          rw [List.getElem?_replicate, if_pos ht, Nat.mod_one, Nat.add_zero,
            List.getElem?_eq_getElem hlt]
      simp only [byteCopy, Nat.add_zero, Nat.zero_add, List.length_replicate] at hrun
      have hslot : ((out.drop o).take length).length = length := by
        rw [List.length_take, List.length_drop]
        omega
      rw [List.getElem?_eq_getElem hlt, get_eq_some out hfits]
      simp only [hslot, hrun]
    · have hloop := periodLoop_eq hlen hpos hsrc hfits (length + 1) 0
        (Nat.zero_le _) (fun _ => Nat.zero_mod _) (by omega)
      simp only [byteCopy] at hloop
      rw [hloop]
      rfl

/-- A match that does not lie in the buffer is refused. -/
theorem copyMatch_of_not (h : ¬InBuffer out o distance length) :
    copyMatch out o distance length = .ok (none, out) := by
  rw [InBuffer] at h
  rw [copyMatch, checkedSub, checkedAdd]
  by_cases hsrc : distance ≤ o
  · by_cases hstop : o + length < 2 ^ 64
    · rw [if_pos hsrc, if_pos hstop]
      simp only
      rw [if_pos (by omega)]
    · rw [if_pos hsrc, if_neg hstop]
  · rw [if_neg hsrc]

/-- **When the copy is right (proved).** -/
theorem copiesMatch_iff (out : List UInt8) (o distance length : ℕ) (hlen : out.length < 2 ^ 63) :
    CopiesMatch out o distance length ↔ ¬Overshoots out o distance length := by
  by_cases h : InBuffer out o distance length
  · have heq := copyMatch_of_inBuffer hlen h
    obtain ⟨hpos, hsrc, hfits⟩ := h
    generalize hn : (if ByWords out o distance length then written length else length) = n at heq
    have hbytes := getElem?_byteCopy out hpos hsrc hfits
    have hend : o + n ≤ out.length := by
      rw [← hn]
      split
      · next hby => rw [ByWords] at hby; rw [written]; omega
      · exact hfits
    have hcopied := getElem?_byteCopy out hpos hsrc hend
    have hle : length ≤ n := by
      rw [← hn, written]
      split <;> omega
    constructor
    · rintro ⟨result, copied, hok, -, hright, -⟩ ⟨rfl, hword, -, hroom, hne⟩
      rw [heq] at hok
      obtain ⟨-, rfl⟩ := Prod.ext_iff.mp (Except.ok.inj hok)
      have hby : ByWords out o distance 0 := ⟨hword, by omega, by omega⟩
      have height : n = 8 := by rw [← hn, if_pos hby]; rfl
      -- The eighth byte lies past the seven.
      have hafter := (hright ⟨hpos, hsrc, hfits⟩).after (o + 7) (by omega)
      rw [hcopied, if_pos (by omega), Nat.add_sub_cancel_left, Nat.mod_eq_of_lt hword] at hafter
      exact hne hafter
    · intro hnot
      refine ⟨_, _, heq, ⟨fun _ => ⟨hpos, hsrc, hfits⟩, fun _ => rfl⟩, fun _ => ?_, fun hin =>
        (hin ⟨hpos, hsrc, hfits⟩).elim⟩
      refine ⟨length_byteCopy n, fun i hi => ?_, fun k hk => ?_, fun k hk => ?_⟩
      · rw [hcopied, hbytes, if_pos (by omega), if_pos (by omega)]
      · rw [hcopied, if_neg (by omega)]
      · rw [hcopied]
        by_cases hin : o ≤ k ∧ k < o + n
        · -- Only the word of an empty match goes so far.
          rw [if_pos hin]
          have hby : ByWords out o distance length := by
            by_contra hby
            rw [if_neg hby] at hn
            omega
          have hroom := hby.2.2
          have hword := hby.1
          rw [if_pos hby, written] at hn
          have hzero : length = 0 := by omega
          have hk7 : k = o + 7 := by omega
          subst hzero hk7
          rw [Nat.add_sub_cancel_left, Nat.mod_eq_of_lt hword]
          by_contra hne
          exact hnot ⟨rfl, hword, hsrc, by omega, hne⟩
        · rw [if_neg hin]
  · have heq := copyMatch_of_not h
    refine ⟨fun _ hover => ?_, fun _ => ⟨none, out, heq, ?_, fun hin => absurd hin h, fun _ => rfl⟩⟩
    · obtain ⟨rfl, hword, hsrc, hroom, -⟩ := hover
      exact h ⟨by omega, hsrc, by omega⟩
    · exact ⟨fun hsome => (by cases hsome), fun hin => absurd hin h⟩

/-- A match of three bytes, two back. -/
theorem copiesMatch_overlap : CopiesMatch [1, 2, 0, 0, 0] 2 2 3 :=
  (copiesMatch_iff [1, 2, 0, 0, 0] 2 2 3 (by decide)).mpr fun h => absurd h.1 (by decide)

/-- An empty match far from the end of the buffer changes eight bytes. -/
theorem copyMatch_empty :
    copyMatch [1, 2, 3, 4, 5, 6, 7, 8, 0, 0, 0, 0, 0, 0, 0, 0] 8 8 0 =
        .ok (some 8, [1, 2, 3, 4, 5, 6, 7, 8, 1, 2, 3, 4, 5, 6, 7, 8]) ∧
      InBuffer [1, 2, 3, 4, 5, 6, 7, 8, 0, 0, 0, 0, 0, 0, 0, 0] 8 8 0 ∧
      ¬CopiesMatch [1, 2, 3, 4, 5, 6, 7, 8, 0, 0, 0, 0, 0, 0, 0, 0] 8 8 0 := by
  have hrun : copyMatch [1, 2, 3, 4, 5, 6, 7, 8, 0, 0, 0, 0, 0, 0, 0, 0] 8 8 0 =
      .ok (some 8, [1, 2, 3, 4, 5, 6, 7, 8, 1, 2, 3, 4, 5, 6, 7, 8]) := by decide
  have hin : InBuffer [1, 2, 3, 4, 5, 6, 7, 8, 0, 0, 0, 0, 0, 0, 0, 0] 8 8 0 := by
    rw [InBuffer]
    decide
  refine ⟨hrun, hin, ?_⟩
  rintro ⟨result, copied, hok, -, hright, -⟩
  rw [hrun] at hok
  obtain ⟨-, rfl⟩ := Prod.ext_iff.mp (Except.ok.inj hok)
  exact absurd ((hright hin).after 15 (by decide)) (by decide)

end Qld.Debug.Copy
