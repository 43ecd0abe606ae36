import Mathlib.Data.UInt
import Qld.Lib.Outcome

/-!
# Identifiers with characters beyond ASCII

The model of `punycode_decode` of `demangle/rust_v0.rs`, and the encoding of RFC 3492 that it
undoes: characters beyond ASCII are inserted in the order of their code points, each given by how
far the next insertion is from the last one, in digits whose weights adapt.

* `readDelta`, `insertNext`, `decodeFrom`, `punycodeDecode` — the decoder, with its checked steps;
* `writeDelta`, `adapt`, `encodeRound`, `punycode` — the encoding;
* `Tracks` — what the decoder holds when the encoder is at a character of the text;
* `punycodeDecode_safe` — an insertion is never past the end of the text;
  `punycodeDecode_punycode` — a text is decoded to itself.
-/

namespace Qld.Demangle

open Qld.Lib Qld.Lib.Outcome

/-! ### The decoder -/

/-- A number that must fit 64 bits. -/
def checked (x : ℕ) : Outcome Unit ℕ := if x < 2 ^ 64 then .ok x else fail ()

/-- `checked_sub`. -/
def checkedSub (a b : ℕ) : Outcome Unit ℕ := if b ≤ a then .ok (a - b) else fail ()

/-- `checked_div`. -/
def checkedDiv (a b : ℕ) : Outcome Unit ℕ := if b = 0 then fail () else .ok (a / b)

/-- `checked_rem`. -/
def checkedRem (a b : ℕ) : Outcome Unit ℕ := if b = 0 then fail () else .ok (a % b)

def BASE : ℕ := 36

def T_MIN : ℕ := 1

def T_MAX : ℕ := 26

def SKEW : ℕ := 38

def MAX_CHARS : ℕ := 4096

/-- The value of a digit. -/
def digitOf (c : UInt8) : Option ℕ :=
  if 97 ≤ c.toNat ∧ c.toNat ≤ 122 then some (c.toNat - 97)
  else if 48 ≤ c.toNat ∧ c.toNat ≤ 57 then some (c.toNat - 48 + 26)
  else none

/-- The digit below which a number ends. -/
def thresholdOf (bias k : ℕ) : Outcome Unit ℕ :=
  if k ≤ bias then .ok T_MIN
  else do
    let top ← checked (bias + T_MAX)
    if top ≤ k then .ok T_MAX else checkedSub k bias

/-- Adds a number of variable length to `i`: the result, and the digits behind it. -/
def readDelta (bias : ℕ) : List UInt8 → ℕ → ℕ → ℕ → Outcome Unit (ℕ × List UInt8)
  | [], _, _, _ => fail ()
  | c :: rest, i, w, k => do
    let digit ← okOr (digitOf c) ()
    let step ← checked (digit * w)
    let i ← checked (i + step)
    let t ← thresholdOf bias k
    if digit < t then .ok (i, rest)
    else
      let scale ← checkedSub BASE t
      let w ← checked (w * scale)
      let k ← checked (k + BASE)
      readDelta bias rest i w k

/-- The loop of the bias adaptation. -/
def shrink (delta k : ℕ) : Outcome Unit (ℕ × ℕ) :=
  if 455 < delta then do
    let k ← checked (k + BASE)
    shrink (delta / 35) k
  else .ok (delta, k)
termination_by delta
decreasing_by omega

/-- Bias adaptation. -/
def adaptBias (oldI i damp len : ℕ) : Outcome Unit ℕ := do
  let delta ← checkedSub i oldI
  let delta ← checkedDiv delta damp
  let share ← checkedDiv delta len
  let delta ← checked (delta + share)
  let (delta, k) ← shrink delta 0
  let scaled ← checked (36 * delta)
  let below ← checked (delta + SKEW)
  let quotient ← checkedDiv scaled below
  checked (k + quotient)

/-- `char::from_u32`. -/
def charOf (n : ℕ) : Option Char := if n.isValidChar then some (Char.ofNat n) else none

/-- `Vec::insert`. -/
def insertAt (output : List Char) (place : ℕ) (c : Char) : Outcome Unit (List Char) :=
  if place ≤ output.length then .ok (output.take place ++ c :: output.drop place) else .error .panic

/-- The decoder under way. -/
structure Decoder where
  output : List Char
  n : ℕ
  i : ℕ
  bias : ℕ
  damp : ℕ
  deriving DecidableEq, Repr

/-- Inserts the character that `i` gives. -/
def insertNext (st : Decoder) (i : ℕ) : Outcome Unit Decoder := do
  let len ← checked (st.output.length + 1)
  if MAX_CHARS ≤ st.output.length then fail ()
  else
    let bias ← adaptBias st.i i st.damp len
    let steps ← checkedDiv i len
    let n ← checked (st.n + steps)
    let place ← checkedRem i len
    if 2 ^ 32 ≤ n then fail ()
    else
      let c ← okOr (charOf n) ()
      let output ← insertAt st.output place c
      let i ← checked (place + 1)
      .ok ⟨output, n, i, bias, 2⟩

variable {bias basic : ℕ}

theorem readDelta_length {out : ℕ × List UInt8} (input : List UInt8) :
    ∀ {i w k : ℕ}, readDelta bias input i w k = .ok out → out.2.length < input.length := by
  induction input with
  | nil => intro i w k h; exact absurd h (by simp [readDelta])
  | cons c rest ih =>
    intro i w k h
    obtain ⟨digit, -, h⟩ := bind_eq_ok.mp h
    obtain ⟨step, -, h⟩ := bind_eq_ok.mp h
    obtain ⟨i', -, h⟩ := bind_eq_ok.mp h
    obtain ⟨t, -, h⟩ := bind_eq_ok.mp h
    split at h
    · obtain rfl := Except.ok.inj h
      exact Nat.lt_succ_self _
    · obtain ⟨scale, -, h⟩ := bind_eq_ok.mp h
      obtain ⟨w', -, h⟩ := bind_eq_ok.mp h
      obtain ⟨k', -, h⟩ := bind_eq_ok.mp h
      exact (ih h).trans (Nat.lt_succ_self _)

/-- The insertions that remain. -/
def decodeFrom (input : List UInt8) (st : Decoder) : Outcome Unit (List Char) :=
  if input = [] then .ok st.output
  else
    match _hread : readDelta st.bias input st.i 1 BASE with
    | .error stop => .error stop
    | .ok (i, rest) => insertNext st i >>= fun st => decodeFrom rest st
termination_by input.length
decreasing_by exact readDelta_length input _hread

/-- `punycode_decode`. -/
def punycodeDecode (ascii punycode : List UInt8) : Outcome Unit (List Char) :=
  decodeFrom punycode ⟨ascii.map fun c => Char.ofNat c.toNat, 128, 0, 72, 700⟩

/-! ### The encoding -/

/-- The digit below which a number ends. -/
def threshold (bias k : ℕ) : ℕ :=
  if k ≤ bias then T_MIN else if bias + T_MAX ≤ k then T_MAX else k - bias

theorem threshold_bounds (bias k : ℕ) : 1 ≤ threshold bias k ∧ threshold bias k ≤ 26 := by
  rw [threshold, T_MIN, T_MAX]
  split
  · omega
  · split <;> omega

/-- A digit. -/
def digitByte (d : ℕ) : UInt8 :=
  if d < 26 then UInt8.ofNat (97 + d) else UInt8.ofNat (48 + (d - 26))

/-- The digits of a number of variable length. -/
def writeDelta (bias q k : ℕ) : List UInt8 :=
  if q < threshold bias k then [digitByte q]
  else
    digitByte (threshold bias k + (q - threshold bias k) % (BASE - threshold bias k)) ::
      writeDelta bias ((q - threshold bias k) / (BASE - threshold bias k)) (k + BASE)
termination_by q
decreasing_by
  have := threshold_bounds bias k
  exact (Nat.div_le_self _ _).trans_lt (by omega)

/-- The number left, and what is added to the bias. -/
def settle (delta k : ℕ) : ℕ × ℕ :=
  if 455 < delta then settle (delta / 35) (k + BASE) else (delta, k)
termination_by delta
decreasing_by omega

/-- The bias after a number was written. -/
def adapt (delta numPoints damp : ℕ) : ℕ :=
  let delta := delta / damp
  let settled := settle (delta + delta / numPoints) 0
  settled.2 + 36 * settled.1 / (settled.1 + SKEW)

/-- The encoder under way. -/
structure Encoder where
  n : ℕ
  delta : ℕ
  bias : ℕ
  h : ℕ
  out : List UInt8

/-- Looks at a character of the text; `basic` is the number of ASCII characters. -/
def encodeChar (basic : ℕ) (st : Encoder) (c : Char) : Encoder :=
  if c.toNat < st.n then { st with delta := st.delta + 1 }
  else if c.toNat = st.n then
    { st with
      delta := 0
      bias := adapt st.delta (st.h + 1) (if st.h = basic then 700 else 2)
      h := st.h + 1
      out := st.out ++ writeDelta st.bias st.delta BASE }
  else st

/-- The least code point of a text that is not below `n`. -/
def nextPoint (s : List Char) (n : ℕ) : ℕ :=
  ((s.map Char.toNat).filter (n ≤ ·)).min?.getD n

/-- Inserts the characters of the next code point. -/
def encodeRound (basic : ℕ) (s : List Char) (st : Encoder) : Encoder :=
  let m := nextPoint s st.n
  let st := s.foldl (encodeChar basic)
    { st with n := m, delta := st.delta + (m - st.n) * (st.h + 1) }
  { st with n := st.n + 1, delta := st.delta + 1 }

/-- Inserts what is left. -/
def encodeRounds (basic : ℕ) (s : List Char) : ℕ → Encoder → Encoder
  | 0, st => st
  | rounds + 1, st =>
    if st.h < s.length then encodeRounds basic s rounds (encodeRound basic s st) else st

/-- The ASCII characters of a text, in order. -/
def asciiPart (s : List Char) : List Char := s.filter fun c => c.toNat < 128

/-- The encoding of the other characters. -/
def punycode (s : List Char) : List UInt8 :=
  (encodeRounds (asciiPart s).length s s.length ⟨128, 0, 72, (asciiPart s).length, []⟩).out

/-! ### Checked steps -/

theorem checked_eq {x : ℕ} (h : x < 2 ^ 64) : checked x = .ok x := if_pos h

theorem thresholdOf_eq {k : ℕ} (h : bias + 26 < 2 ^ 64) :
    thresholdOf bias k = .ok (threshold bias k) := by
  rw [thresholdOf, threshold]
  split
  · rfl
  · refine bind_eq_ok.mpr ⟨_, checked_eq h, ?_⟩
    split
    · rfl
    · exact if_pos (by omega)

theorem digitOf_digitByte {d : ℕ} (h : d < 36) : digitOf (digitByte d) = some d := by
  have hall : ∀ d : Fin 36, digitOf (digitByte d) = some d.val := by decide
  exact hall ⟨d, h⟩

/-- **A number of variable length is read back.** -/
theorem readDelta_writeDelta (hbias : bias + 26 < 2 ^ 64) (rest : List UInt8) (q : ℕ) :
    ∀ {i w k : ℕ}, 36 * (i + q * w) < 2 ^ 64 → k + 36 * q < 2 ^ 64 →
      readDelta bias (writeDelta bias q k ++ rest) i w k = .ok (i + q * w, rest) := by
  induction q using Nat.strongRecOn with
  | ind q ih =>
    intro i w k hsum hk
    have ht := threshold_bounds bias k
    obtain ⟨t, hteq⟩ : ∃ t, t = threshold bias k := ⟨_, rfl⟩
    rw [writeDelta, ← hteq]
    rw [← hteq] at ht
    split
    · next hlt =>
      refine bind_eq_ok.mpr ⟨q, okOr_eq_ok.mpr (digitOf_digitByte (by omega)), ?_⟩
      refine bind_eq_ok.mpr ⟨_, checked_eq (by omega), ?_⟩
      refine bind_eq_ok.mpr ⟨_, checked_eq (by omega), ?_⟩
      refine bind_eq_ok.mpr ⟨t, hteq ▸ thresholdOf_eq hbias, ?_⟩
      rw [if_pos hlt]
      rfl
    · next hge =>
      obtain ⟨d, hd⟩ : ∃ d, d = t + (q - t) % (BASE - t) := ⟨_, rfl⟩
      obtain ⟨p, hp⟩ : ∃ p, p = (q - t) / (BASE - t) := ⟨_, rfl⟩
      rw [← hd, ← hp]
      have hbase : BASE = 36 := rfl
      have hmod : (q - t) % (BASE - t) < BASE - t := Nat.mod_lt _ (by omega)
      have hdiv : (BASE - t) * p + (q - t) % (BASE - t) = q - t := by
        rw [hp]
        exact Nat.div_add_mod _ _
      have hq : q = d + (BASE - t) * p := by omega
      have hlt : p < q := by
        rw [hp]
        exact (Nat.div_le_self _ _).trans_lt (by omega)
      -- what was read, and what is left at the next weight
      have hsplit : d * w + p * (w * (BASE - t)) = q * w := by
        rw [hq, Nat.add_mul, Nat.mul_comm (BASE - t) p, Nat.mul_assoc, Nat.mul_comm (BASE - t) w]
      have hw : w ≤ q * w := Nat.le_mul_of_pos_left w (by omega)
      have hscale : w * (BASE - t) ≤ w * 36 := Nat.mul_le_mul_left w (by omega)
      rw [List.cons_append]
      refine bind_eq_ok.mpr ⟨d, okOr_eq_ok.mpr (digitOf_digitByte (by omega)), ?_⟩
      refine bind_eq_ok.mpr ⟨_, checked_eq (by omega), ?_⟩
      refine bind_eq_ok.mpr ⟨_, checked_eq (by omega), ?_⟩
      refine bind_eq_ok.mpr ⟨t, hteq ▸ thresholdOf_eq hbias, ?_⟩
      rw [if_neg (by omega)]
      refine bind_eq_ok.mpr ⟨_, if_pos (by omega), bind_eq_ok.mpr ⟨_, checked_eq (by omega), ?_⟩⟩
      refine bind_eq_ok.mpr ⟨_, checked_eq (by omega), ?_⟩
      rw [ih p hlt (by omega) (by omega), Nat.add_assoc, hsplit]

theorem settle_bounds (delta : ℕ) : ∀ k : ℕ,
    (settle delta k).1 ≤ 455 ∧ (settle delta k).2 ≤ k + 36 * delta := by
  induction delta using Nat.strongRecOn with
  | ind delta ih =>
    intro k
    rw [settle]
    split
    · have := ih (delta / 35) (by omega) (k + BASE)
      have hbase : BASE = 36 := rfl
      omega
    · exact ⟨by omega, Nat.le_add_right _ _⟩

theorem shrink_eq (delta : ℕ) : ∀ {k : ℕ}, k + 36 * delta < 2 ^ 64 →
    shrink delta k = .ok (settle delta k) := by
  induction delta using Nat.strongRecOn with
  | ind delta ih =>
    intro k h
    rw [shrink, settle]
    split
    · have hbase : BASE = 36 := rfl
      exact bind_eq_ok.mpr ⟨_, checked_eq (by omega), ih (delta / 35) (by omega) (by omega)⟩
    · rfl

/-- The bias of the decoder is the one of the encoder. -/
theorem adaptBias_eq {oldI delta damp len : ℕ} (hdamp : 2 ≤ damp) (hlen : 0 < len)
    (hdelta : delta < 2 ^ 40) :
    adaptBias oldI (oldI + delta) damp len = .ok (adapt delta len damp) ∧
      adapt delta len damp < 2 ^ 48 := by
  have hshare : delta / damp ≤ delta := Nat.div_le_self _ _
  have hshare' : delta / damp / len ≤ delta / damp := Nat.div_le_self _ _
  obtain ⟨d, hd⟩ : ∃ d, d = delta / damp + delta / damp / len := ⟨_, rfl⟩
  have hskew : SKEW = 38 := rfl
  obtain ⟨hone, htwo⟩ := settle_bounds d 0
  have hquotient : 36 * (settle d 0).1 / ((settle d 0).1 + SKEW) ≤ 36 * (settle d 0).1 :=
    Nat.div_le_self _ _
  constructor
  · refine bind_eq_ok.mpr ⟨delta, ?_, ?_⟩
    · rw [checkedSub, if_pos (Nat.le_add_right _ _), Nat.add_sub_cancel_left]
    refine bind_eq_ok.mpr ⟨_, if_neg (by omega), bind_eq_ok.mpr ⟨_, if_neg (by omega), ?_⟩⟩
    refine bind_eq_ok.mpr ⟨d, hd ▸ checked_eq (by omega), ?_⟩
    refine bind_eq_ok.mpr ⟨_, shrink_eq d (by omega), ?_⟩
    refine bind_eq_ok.mpr ⟨_, checked_eq (by omega), bind_eq_ok.mpr ⟨_, checked_eq (by omega), ?_⟩⟩
    refine bind_eq_ok.mpr ⟨_, if_neg (by omega), ?_⟩
    rw [adapt, ← hd]
    exact checked_eq (by omega)
  · rw [adapt, ← hd]
    show (settle d 0).2 + 36 * (settle d 0).1 / ((settle d 0).1 + SKEW) < 2 ^ 48
    omega

/-- A decoder step: a number, and the insertion that it gives. -/
theorem decodeFrom_writeDelta {st st' : Decoder} {delta : ℕ} (hbias : st.bias + 26 < 2 ^ 64)
    (hsum : 36 * (st.i + delta) < 2 ^ 64 - 36) (hnext : insertNext st (st.i + delta) = .ok st')
    (rest : List UInt8) :
    decodeFrom (writeDelta st.bias delta BASE ++ rest) st = decodeFrom rest st' := by
  have hbase : BASE = 36 := rfl
  have hread := readDelta_writeDelta hbias rest delta (i := st.i) (w := 1) (k := BASE)
    (by omega) (by omega)
  rw [Nat.mul_one] at hread
  have hne : writeDelta st.bias delta BASE ++ rest ≠ [] := by
    rw [writeDelta]
    split <;> exact List.cons_ne_nil _ _
  rw [decodeFrom, if_neg hne]
  split
  · next stop h => exact absurd (h.symm.trans hread) (by simp)
  · next i rest' h =>
    obtain ⟨rfl, rfl⟩ := Prod.mk.inj (Except.ok.inj (h.symm.trans hread))
    rw [hnext]
    rfl

theorem charOf_toNat (c : Char) : charOf c.toNat = some c := by
  rw [charOf, if_pos (show c.toNat.isValidChar from c.valid), Char.ofNat_toNat]

theorem toNat_lt (c : Char) : c.toNat < 1114112 := by
  rcases c.valid with h | h
  · exact h.trans (by decide)
  · exact h.2

/-! ### Both sides together -/

/-- What the decoder holds when the encoder is at a character of the text: `pre` was looked at in
this round, `post` was not.  The two numbers of the decoder and the delta of the encoder add up to
the place of the next insertion, counted over all code points. -/
structure Tracks (basic : ℕ) (pre post : List Char) (st : Encoder) (d : Decoder) : Prop where
  output : d.output = (pre.filter fun c => c.toNat ≤ st.n) ++ post.filter fun c => c.toNat < st.n
  h : st.h = d.output.length
  bias : d.bias = st.bias ∧ st.bias < 2 ^ 48
  damp : d.damp = if st.h = basic then 700 else 2
  place : d.n * (st.h + 1) + d.i + st.delta =
    st.n * (st.h + 1) + (pre.filter fun c => c.toNat ≤ st.n).length

theorem insertAt_length (l r : List Char) (c : Char) :
    insertAt (l ++ r) l.length c = .ok (l ++ c :: r) := by
  rw [insertAt, if_pos (by rw [List.length_append]; exact Nat.le_add_right _ _), List.take_left,
    List.drop_left]

variable {st : Encoder} {c : Char}

/-- **The decoder inserts the character that the encoder is at.** -/
theorem insertNext_tracks {pre post : List Char} {d : Decoder}
    (h : Tracks basic pre (c :: post) st d) (hc : c.toNat = st.n) (hbasic : basic ≤ st.h)
    (hlen : st.h < 4096) :
    36 * (d.i + st.delta) < 2 ^ 64 - 36 ∧ ∃ d', insertNext d (d.i + st.delta) = .ok d' ∧
      Tracks basic (pre ++ [c]) post
        { st with
          delta := 0
          bias := adapt st.delta (st.h + 1) (if st.h = basic then 700 else 2)
          h := st.h + 1
          out := st.out ++ writeDelta st.bias st.delta BASE } d' := by
  obtain ⟨l, hl⟩ : ∃ l, l = pre.filter fun c => c.toNat ≤ st.n := ⟨_, rfl⟩
  obtain ⟨r, hr⟩ : ∃ r, r = post.filter fun c => c.toNat < st.n := ⟨_, rfl⟩
  have houtput : d.output = l ++ r := by
    rw [h.output, List.filter_cons_of_neg (by simp [hc]), ← hl, ← hr]
  have hplace := h.place
  rw [← hl] at hplace
  have hlength : st.h = l.length + r.length := by
    rw [h.h, houtput, List.length_append]
  -- the place of the insertion, by division
  have hn : c.toNat < 1114112 := toNat_lt c
  have htotal : st.n * (st.h + 1) ≤ 1114112 * 4097 := Nat.mul_le_mul (by omega) (by omega)
  have hle : d.n ≤ st.n := by
    by_contra hlt
    have : (st.n + 1) * (st.h + 1) ≤ d.n * (st.h + 1) := Nat.mul_le_mul_right _ (by omega)
    rw [Nat.add_mul] at this
    omega
  have hsum : d.i + st.delta = (st.n - d.n) * (st.h + 1) + l.length := by
    rw [Nat.sub_mul]
    have : d.n * (st.h + 1) ≤ st.n * (st.h + 1) := Nat.mul_le_mul_right _ hle
    omega
  have hdiv : (d.i + st.delta) / (st.h + 1) = st.n - d.n := by
    rw [hsum, Nat.mul_comm, Nat.mul_add_div (Nat.succ_pos _), Nat.div_eq_of_lt (by omega),
      Nat.add_zero]
  have hmod : (d.i + st.delta) % (st.h + 1) = l.length := by
    rw [hsum, Nat.mul_comm, Nat.mul_add_mod, Nat.mod_eq_of_lt (by omega)]
  have hdamp : 2 ≤ d.damp := by
    rw [h.damp]
    split <;> omega
  obtain ⟨hadapt, hbias⟩ := @adaptBias_eq d.i st.delta d.damp (st.h + 1) hdamp
    (Nat.succ_pos _) (by omega)
  refine ⟨by omega, ⟨l ++ c :: r, st.n, l.length + 1,
    adapt st.delta (st.h + 1) d.damp, 2⟩, ?_, ?_⟩
  · refine bind_eq_ok.mpr ⟨st.h + 1, h.h ▸ checked_eq (by omega), ?_⟩
    rw [if_neg (by rw [← h.h, MAX_CHARS]; omega)]
    refine bind_eq_ok.mpr ⟨_, hadapt, bind_eq_ok.mpr ⟨st.n - d.n, ?_, ?_⟩⟩
    · rw [checkedDiv, if_neg (Nat.succ_ne_zero _), hdiv]
    refine bind_eq_ok.mpr ⟨st.n, ?_, bind_eq_ok.mpr ⟨l.length, ?_, ?_⟩⟩
    · rw [Nat.add_sub_cancel' hle]
      exact checked_eq (by omega)
    · rw [checkedRem, if_neg (Nat.succ_ne_zero _), hmod]
    rw [if_neg (by omega)]
    refine bind_eq_ok.mpr ⟨c, ?_, bind_eq_ok.mpr ⟨l ++ c :: r, ?_, ?_⟩⟩
    · rw [← hc, charOf_toNat]
      rfl
    · rw [houtput]
      exact insertAt_length l r c
    · exact bind_eq_ok.mpr ⟨_, checked_eq (by omega), rfl⟩
  · refine ⟨?_, ?_, ⟨?_, ?_⟩, ?_, ?_⟩
    · simp [List.filter_append, hc, ← hl, ← hr]
    · simp only [List.length_append, List.length_cons]
      omega
    · rw [h.damp]
    · rw [← h.damp]
      exact hbias
    · show 2 = if st.h + 1 = basic then 700 else 2
      rw [if_neg (by omega)]
    · simp only [List.filter_append, ← hl, List.length_append]
      simp [hc, Nat.mul_add]

/-- The bytes written so far take the decoder from `d₀` to where the encoder is. -/
def Reaches (basic : ℕ) (pre post : List Char) (d₀ : Decoder) (st : Encoder) : Prop :=
  ∃ d, Tracks basic pre post st d ∧ basic ≤ st.h ∧
    ∀ rest, decodeFrom (st.out ++ rest) d₀ = decodeFrom rest d

variable {d₀ : Decoder}

/-- **One character of the text.** -/
theorem encodeChar_reaches {pre post : List Char} (hlen : (pre ++ c :: post).length ≤ 4096)
    (h : Reaches basic pre (c :: post) d₀ st) :
    Reaches basic (pre ++ [c]) post d₀ (encodeChar basic st c) := by
  obtain ⟨d, htracks, hbasic, hrun⟩ := h
  rw [encodeChar]
  by_cases hlt : c.toNat < st.n
  · rw [if_pos hlt]
    refine ⟨d, ⟨?_, htracks.h, htracks.bias, htracks.damp, ?_⟩, hbasic, hrun⟩
    · rw [htracks.output]
      simp [List.filter_append, hlt, hlt.le]
    · have hplace := htracks.place
      simp only [List.filter_append, List.length_append]
      simp only [List.filter_cons, hlt.le, decide_true, if_true, List.filter_nil,
        List.length_singleton]
      omega
  rw [if_neg hlt]
  by_cases hc : c.toNat = st.n
  · -- The text that was decoded is a part of the text without this character.
    have hshort : st.h < 4096 := by
      rw [htracks.h, htracks.output, List.length_append, List.filter_cons_of_neg (by simp [hlt])]
      have := List.length_filter_le (fun c => decide (c.toNat ≤ st.n)) pre
      have := List.length_filter_le (fun c => decide (c.toNat < st.n)) post
      rw [List.length_append, List.length_cons] at hlen
      omega
    obtain ⟨hsum, d', hnext, htracks'⟩ := insertNext_tracks htracks hc hbasic hshort
    rw [if_pos hc]
    refine ⟨d', htracks', hbasic.trans (Nat.le_succ _), fun rest => ?_⟩
    show decodeFrom (st.out ++ writeDelta st.bias st.delta BASE ++ rest) d₀ = _
    rw [List.append_assoc, hrun, ← htracks.bias.1]
    have := htracks.bias
    exact decodeFrom_writeDelta (by omega) hsum hnext rest
  · rw [if_neg hc]
    refine ⟨d, ⟨?_, htracks.h, htracks.bias, htracks.damp, ?_⟩, hbasic, hrun⟩
    · rw [htracks.output]
      have : ¬ c.toNat ≤ st.n := by omega
      simp [List.filter_append, hlt, this]
    · have : ¬ c.toNat ≤ st.n := by omega
      rw [htracks.place]
      simp [List.filter_append, this]

theorem encodeChar_n (basic : ℕ) (st : Encoder) (c : Char) : (encodeChar basic st c).n = st.n := by
  rw [encodeChar]
  split
  · rfl
  · split <;> rfl

theorem foldl_encodeChar {basic : ℕ} {d₀ : Decoder} (post : List Char) :
    ∀ {pre : List Char} {st : Encoder}, (pre ++ post).length ≤ 4096 →
      Reaches basic pre post d₀ st →
      Reaches basic (pre ++ post) [] d₀ (post.foldl (encodeChar basic) st) ∧
        (post.foldl (encodeChar basic) st).n = st.n := by
  induction post with
  | nil =>
    intro pre st _ h
    rw [List.append_nil]
    exact ⟨h, rfl⟩
  | cons c post ih =>
    intro pre st hlen h
    have hnext := encodeChar_reaches hlen h
    have hsplit : pre ++ c :: post = pre ++ [c] ++ post := by rw [List.append_assoc]; rfl
    obtain ⟨hreach, hn⟩ := @ih (pre ++ [c]) _ (hsplit ▸ hlen) hnext
    rw [hsplit, List.foldl_cons]
    exact ⟨hreach, hn.trans (encodeChar_n basic st c)⟩

variable {s : List Char}

theorem nextPoint_spec {n : ℕ} (h : ∃ c ∈ s, n ≤ c.toNat) :
    n ≤ nextPoint s n ∧ (∃ c ∈ s, c.toNat = nextPoint s n) ∧
      ∀ c ∈ s, n ≤ c.toNat → nextPoint s n ≤ c.toNat := by
  have hmem : ∀ x, x ∈ (s.map Char.toNat).filter (n ≤ ·) ↔ (∃ c ∈ s, c.toNat = x) ∧ n ≤ x := by
    intro x
    rw [List.mem_filter, List.mem_map, decide_eq_true_eq]
  obtain ⟨c, hc, hle⟩ := h
  cases hmin : ((s.map Char.toNat).filter (n ≤ ·)).min? with
  | none =>
    rw [List.min?_eq_none_iff] at hmin
    have := (hmem c.toNat).mpr ⟨⟨c, hc, rfl⟩, hle⟩
    rw [hmin] at this
    exact absurd this List.not_mem_nil
  | some m =>
    obtain ⟨hm, hleast⟩ := List.min?_eq_some_iff.mp hmin
    have hnext : nextPoint s n = m := by rw [nextPoint, hmin, Option.getD_some]
    rw [hnext]
    exact ⟨((hmem m).mp hm).2, ((hmem m).mp hm).1, fun c hc hle =>
      hleast _ ((hmem c.toNat).mpr ⟨⟨c, hc, rfl⟩, hle⟩)⟩

theorem length_filter_lt_add {n m : ℕ} (h : n ≤ m) (s : List Char) :
    (s.filter fun c => c.toNat < n).length + (s.filter fun c => c.toNat = m).length ≤
      (s.filter fun c => c.toNat ≤ m).length := by
  induction s with
  | nil => exact Nat.le_refl 0
  | cons c s ih =>
    by_cases hlt : c.toNat < n
    · have hne : c.toNat ≠ m := by omega
      have hle : c.toNat ≤ m := by omega
      simp [hlt, hne, hle]
      omega
    · by_cases heq : c.toNat = m
      · have hnot : ¬ m < n := by omega
        simp [hnot, heq]
        omega
      · by_cases hle : c.toNat ≤ m
        · simp [hlt, heq, hle]
          omega
        · simp [hlt, heq, hle]
          omega

/-- **One round: the characters of the next code point.** -/
theorem encodeRound_reaches (hlen : s.length ≤ 4096) (h : Reaches basic [] s d₀ st)
    (hmore : st.h < s.length) :
    Reaches basic [] s d₀ (encodeRound basic s st) ∧ st.h < (encodeRound basic s st).h := by
  obtain ⟨d, htracks, hbasic, hrun⟩ := h
  have houtput : d.output = s.filter fun c => c.toNat < st.n := htracks.output
  -- a character is left
  have hleft : ∃ c ∈ s, st.n ≤ c.toNat := by
    by_contra hnone
    have hall : s.filter (fun c => decide (c.toNat < st.n)) = s := by
      refine List.filter_eq_self.mpr fun c hc => decide_eq_true ?_
      by_contra hlt
      exact hnone ⟨c, hc, by omega⟩
    rw [htracks.h, houtput, hall] at hmore
    exact absurd hmore (Nat.lt_irrefl _)
  obtain ⟨hm, ⟨c₀, hc₀, hc₀m⟩, hleast⟩ := nextPoint_spec hleft
  have hsame : s.filter (fun c => decide (c.toNat < nextPoint s st.n)) =
      s.filter fun c => c.toNat < st.n := by
    refine List.filter_congr fun c hc => decide_eq_decide.mpr ⟨fun hlt => ?_, fun hlt => by omega⟩
    by_contra hge
    have := hleast c hc (by omega)
    omega
  have hstart : Reaches basic [] s d₀ { st with
      n := nextPoint s st.n, delta := st.delta + (nextPoint s st.n - st.n) * (st.h + 1) } := by
    refine ⟨d, ⟨?_, htracks.h, htracks.bias, htracks.damp, ?_⟩, hbasic, hrun⟩
    · rw [houtput, ← hsame]
      rfl
    · have hplace := htracks.place
      simp only [List.filter_nil, List.length_nil, Nat.add_zero] at hplace ⊢
      rw [Nat.sub_mul]
      have : st.n * (st.h + 1) ≤ nextPoint s st.n * (st.h + 1) := Nat.mul_le_mul_right _ hm
      omega
  obtain ⟨⟨d', htracks', hbasic', hrun'⟩, hn⟩ := @foldl_encodeChar basic d₀ s [] _ hlen hstart
  obtain ⟨st', hst'⟩ : ∃ st', st' = s.foldl (encodeChar basic) { st with
      n := nextPoint s st.n, delta := st.delta + (nextPoint s st.n - st.n) * (st.h + 1) } :=
    ⟨_, rfl⟩
  rw [List.nil_append, ← hst'] at htracks'
  rw [← hst'] at hn hbasic' hrun'
  have hround : encodeRound basic s st = { st' with n := st'.n + 1, delta := st'.delta + 1 } := by
    rw [hst']
    rfl
  have houtput' : d'.output = s.filter fun c => c.toNat ≤ st'.n := by
    rw [htracks'.output, List.filter_nil, List.append_nil]
  rw [hround]
  refine ⟨⟨d', ⟨?_, htracks'.h, htracks'.bias, htracks'.damp, ?_⟩, hbasic', hrun'⟩, ?_⟩
  · rw [houtput', List.filter_nil, List.nil_append]
    exact List.filter_congr fun c _ => decide_eq_decide.mpr Nat.lt_succ_iff.symm
  · have hplace := htracks'.place
    rw [← houtput', ← htracks'.h] at hplace
    simp only [List.filter_nil, List.length_nil, Nat.add_mul]
    omega
  · show st.h < st'.h
    rw [htracks.h, houtput, htracks'.h, houtput', hn]
    have hsub := length_filter_lt_add hm s
    have hpos : 0 < (s.filter fun c => decide (c.toNat = nextPoint s st.n)).length :=
      List.length_pos_of_mem (List.mem_filter.mpr ⟨hc₀, decide_eq_true hc₀m⟩)
    show (s.filter fun c => decide (c.toNat < st.n)).length <
      (s.filter fun c => decide (c.toNat ≤ nextPoint s st.n)).length
    omega

/-- After as many rounds as the text has characters, every character is inserted. -/
theorem encodeRounds_reaches (hlen : s.length ≤ 4096) (rounds : ℕ) :
    ∀ {st : Encoder}, Reaches basic [] s d₀ st → s.length ≤ st.h + rounds →
      Reaches basic [] s d₀ (encodeRounds basic s rounds st) ∧
        s.length ≤ (encodeRounds basic s rounds st).h := by
  induction rounds with
  | zero => exact fun h hle => ⟨h, hle⟩
  | succ rounds ih =>
    intro st h hle
    rw [encodeRounds]
    split
    · next hmore =>
      obtain ⟨hround, hlt⟩ := encodeRound_reaches hlen h hmore
      exact ih hround (by omega)
    · next hdone => exact ⟨h, Nat.le_of_not_lt hdone⟩

theorem ofNat_ascii (h : c.toNat < 128) :
    Char.ofNat (UInt8.ofNat c.toNat).toNat = c := by
  rw [UInt8.toNat_ofNat', Nat.mod_eq_of_lt (by omega), Char.ofNat_toNat]

/-- The ASCII characters of a text, as bytes. -/
def asciiBytes (s : List Char) : List UInt8 := (asciiPart s).map fun c => UInt8.ofNat c.toNat

theorem map_asciiBytes (s : List Char) :
    (asciiBytes s).map (fun c => Char.ofNat c.toNat) = asciiPart s := by
  rw [asciiBytes, List.map_map]
  refine (List.map_congr_left fun c hc => ?_).trans (List.map_id _)
  exact ofNat_ascii (of_decide_eq_true (List.mem_filter.mp hc).2)

theorem punycodeDecode_encoded (hlen : s.length ≤ 4096) :
    punycodeDecode (asciiBytes s) (punycode s) = .ok s := by
  have hstart : Reaches (asciiPart s).length [] s ⟨asciiPart s, 128, 0, 72, 700⟩
      ⟨128, 0, 72, (asciiPart s).length, []⟩ := by
    refine ⟨_, ⟨rfl, rfl, ⟨rfl, show 72 < 2 ^ 48 by decide⟩, (if_pos rfl).symm, ?_⟩, le_rfl,
      fun _ => rfl⟩
    rfl
  obtain ⟨⟨d, htracks, -, hrun⟩, hdone⟩ :=
    encodeRounds_reaches hlen s.length hstart (Nat.le_add_left _ _)
  have hempty := hrun []
  rw [List.append_nil] at hempty
  rw [punycodeDecode, map_asciiBytes, punycode, hempty, decodeFrom, if_pos rfl,
    htracks.output]
  rw [htracks.h, htracks.output] at hdone
  exact congrArg _ (List.filter_sublist.eq_of_length_le hdone)

/-! ### Any input -/

theorem safe_checked (x : ℕ) : Safe (checked x) :=
  Safe.ite (fun _ => safe_ok _) fun _ => safe_fail _

theorem safe_checkedSub (a b : ℕ) : Safe (checkedSub a b) :=
  Safe.ite (fun _ => safe_ok _) fun _ => safe_fail _

theorem safe_checkedDiv (a b : ℕ) : Safe (checkedDiv a b) :=
  Safe.ite (fun _ => safe_fail _) fun _ => safe_ok _

theorem safe_checkedRem (a b : ℕ) : Safe (checkedRem a b) :=
  Safe.ite (fun _ => safe_fail _) fun _ => safe_ok _

theorem safe_readDelta (bias : ℕ) (input : List UInt8) : ∀ i w k : ℕ,
    Safe (readDelta bias input i w k) := by
  induction input with
  | nil => exact fun _ _ _ => safe_fail _
  | cons c rest ih =>
    intro i w k
    refine (safe_okOr _ _).bind fun digit _ => (safe_checked _).bind fun step _ =>
      (safe_checked _).bind fun i' _ => ?_
    have hthreshold : Safe (thresholdOf bias k) :=
      Safe.ite (fun _ => safe_ok _) fun _ => (safe_checked _).bind fun top _ =>
        Safe.ite (fun _ => safe_ok _) fun _ => safe_checkedSub _ _
    refine hthreshold.bind fun t _ => Safe.ite (fun _ => safe_ok _) fun _ => ?_
    exact (safe_checkedSub _ _).bind fun scale _ => (safe_checked _).bind fun w' _ =>
      (safe_checked _).bind fun k' _ => ih i' w' k'

theorem safe_shrink (delta : ℕ) : ∀ k : ℕ, Safe (shrink delta k) := by
  induction delta using Nat.strongRecOn with
  | ind delta ih =>
    intro k
    rw [shrink]
    refine Safe.ite (fun hlarge => ?_) fun _ => safe_ok _
    exact (safe_checked _).bind fun k' _ => ih (delta / 35) (by omega) k'

theorem safe_adaptBias (oldI i damp len : ℕ) : Safe (adaptBias oldI i damp len) :=
  (safe_checkedSub _ _).bind fun _ _ => (safe_checkedDiv _ _).bind fun _ _ =>
    (safe_checkedDiv _ _).bind fun _ _ => (safe_checked _).bind fun _ _ =>
      (safe_shrink _ _).bind fun _ _ => (safe_checked _).bind fun _ _ =>
        (safe_checked _).bind fun _ _ => (safe_checkedDiv _ _).bind fun _ _ => safe_checked _

/-- **The place of an insertion is a remainder by one more than the length.** -/
theorem safe_insertNext (st : Decoder) (i : ℕ) : Safe (insertNext st i) := by
  refine (safe_checked _).bind fun len hlen => Safe.ite (fun _ => safe_fail _) fun _ => ?_
  refine (safe_adaptBias _ _ _ _).bind fun bias _ => (safe_checkedDiv _ _).bind fun steps _ =>
    (safe_checked _).bind fun n _ => (safe_checkedRem _ _).bind fun place hplace => ?_
  refine Safe.ite (fun _ => safe_fail _) fun _ => (safe_okOr _ _).bind fun c _ => ?_
  have hle : place ≤ st.output.length := by
    rw [checked] at hlen
    split at hlen
    · obtain rfl := Except.ok.inj hlen
      rw [checkedRem, if_neg (Nat.succ_ne_zero _)] at hplace
      rw [← Except.ok.inj hplace]
      exact Nat.lt_succ_iff.mp (Nat.mod_lt _ (Nat.succ_pos _))
    · exact absurd hlen (by simp [fail])
  have hinsert : Safe (insertAt st.output place c) := by
    rw [insertAt, if_pos hle]
    exact safe_ok _
  exact hinsert.bind fun output _ => (safe_checked _).bind fun i' _ => safe_ok _

theorem safe_decodeFrom (n : ℕ) : ∀ (input : List UInt8) (st : Decoder), input.length ≤ n →
    Safe (decodeFrom input st) := by
  induction n with
  | zero =>
    intro input st hn
    rw [decodeFrom, if_pos (List.length_eq_zero_iff.mp (Nat.le_zero.mp hn))]
    exact safe_ok _
  | succ n ih =>
    intro input st hn
    rw [decodeFrom]
    refine Safe.ite (fun _ => safe_ok _) fun _ => ?_
    split
    · next stop h =>
      have hsafe := safe_readDelta st.bias input st.i 1 BASE
      rw [h] at hsafe
      simpa [Safe] using hsafe
    · next i rest h =>
      have := readDelta_length input h
      exact (safe_insertNext st i).bind fun st' _ => ih rest st' (by
        show rest.length ≤ n
        have : rest.length < input.length := this
        omega)

/-- **A text is decoded to itself, and no input inserts past the end (proved).** -/
theorem punycodeDecode_punycode (s : List Char) (hlen : s.length ≤ 4096) :
    punycodeDecode (asciiBytes s) (punycode s) = .ok s ∧
      ∀ ascii punycode : List UInt8, Safe (punycodeDecode ascii punycode) :=
  ⟨punycodeDecode_encoded hlen, fun _ _ => safe_decodeFrom _ _ _ le_rfl⟩

/-- A text with a character beyond ASCII between two that are not. -/
theorem buche_decoded : punycodeDecode (asciiBytes ['b', 'ü', 'c']) (punycode ['b', 'ü', 'c']) =
    .ok ['b', 'ü', 'c'] :=
  (punycodeDecode_punycode ['b', 'ü', 'c'] (by decide)).1

end Qld.Demangle
