import Qld.Macho.Read.Chained

/-!
# Chained pointers

* `Says` — what a pointer of the image should say of a fixup;
* `encode_spec` — an encoded pointer says it, and holds its link.
-/

namespace Qld.Macho

open Qld.Lib Read

/-! ### Pointers and fixups -/

/-- What a pointer says of a fixup: its target, or an entry of the table and an addend. -/
def Says (table : List (ℕ × ℤ)) (kind : FixupKind) (auth : Option PtrAuth) (pointer : Pointer) :
    Prop :=
  match kind with
  | .rebase target => pointer = .rebase target auth
  | .bind symbol addend => ∃ (index : ℕ) (stored rest : ℤ), pointer = .bind index stored auth ∧
      table[index]? = some (symbol, rest) ∧ stored + rest = addend

/-- The schema that a format can hold. -/
def heldAuth (format : PointerFormat) (fixup : Fixup) : Option PtrAuth :=
  if format = .ptr64 then none else fixup.auth

/-! ### Addends -/

/-- The inline addend and the addend of the table make up the addend of a bind. -/
theorem inline_spec (format : PointerFormat) (imports : ImportsFormat) (fixup : Fixup)
    (symbol : ℕ) (addend : ℤ) :
    (inline format imports fixup symbol addend).2.1 = symbol ∧
      (inline format imports fixup symbol addend).1.getD 0 +
        (inline format imports fixup symbol addend).2.2 = addend := by
  rw [inline]
  split
  · exact ⟨rfl, Int.add_zero addend⟩
  · exact ⟨rfl, Int.zero_add addend⟩

variable {format : PointerFormat} {imports : ImportsFormat} {fixup : Fixup}

theorem inlineRoom_inline {symbol : ℕ} {addend : ℤ}
    (hplain : imports = .plain → inlineRoom format fixup addend = true) :
    inlineRoom format fixup ((inline format imports fixup symbol addend).1.getD 0) = true := by
  rw [inline]
  split
  · next h =>
    rcases h with h | h
    · exact hplain h
    · exact h.2
  · rw [inlineRoom]
    split
    · rfl
    split
    · rfl
    · rfl

variable {table : List (ℕ × ℤ)}

theorem ordinalOf_spec {symbol : ℕ} {addend : ℤ} {result : ℕ × ℕ}
    (hplain : imports = .plain → inlineRoom format fixup addend = true)
    (h : ordinalOf format imports table fixup symbol addend = .ok result) :
    result.1 < table.length ∧ ∃ stored rest : ℤ, table[result.1]? = some (symbol, rest) ∧
      stored + rest = addend ∧ result.2 = asU64 stored ∧ inlineRoom format fixup stored = true := by
  obtain ⟨ordinal, hordinal, h⟩ := bind_eq_ok.mp h
  obtain rfl := Except.ok.inj h
  obtain ⟨hlt, hkey, -⟩ := List.findIdx?_eq_some_iff_getElem.mp (okOrElse_eq_ok.mp hordinal)
  obtain ⟨hsymbol, hsum⟩ := inline_spec format imports fixup symbol addend
  refine ⟨hlt, _, _, ?_, hsum, rfl, inlineRoom_inline hplain⟩
  rw [List.getElem?_eq_getElem hlt, of_decide_eq_true hkey]
  exact congrArg some (Prod.ext hsymbol rfl)

/-! ### `DYLD_CHAINED_PTR_64` -/

variable {next raw ordinal low : ℕ} (imageBase : ℕ)

theorem encodePtr64_spec (hnext : next < 2 ^ 12) (htable : table.length < 2 ^ 24)
    (hplain : ∀ symbol addend, fixup.kind = .bind symbol addend → imports = .plain →
      inlineRoom .ptr64 fixup addend = true)
    (h : encodePtr64 fixup next (ordinalOf .ptr64 imports table fixup) = .ok raw) :
    raw < 2 ^ 64 ∧ nextField .ptr64 raw = next ∧
      Says table fixup.kind none (decode .ptr64 imageBase raw) := by
  obtain ⟨address, kind, auth, typed⟩ := fixup
  cases kind with
  | rebase target =>
    have htarget : target < 2 ^ 64 := typed
    rw [encodePtr64] at h
    dsimp only at h
    rw [Nat.and_two_pow_sub_one_eq_mod, Nat.shiftRight_eq_div_pow] at h
    split at h
    · exact nomatch h
    obtain rfl := Except.ok.inj h
    have hsplit := Nat.div_add_mod target (2 ^ 56)
    have hhigh : target / 2 ^ 56 < 2 ^ 8 := by omega
    have hlow : target % 2 ^ 56 < 2 ^ 36 := by omega
    generalize target / 2 ^ 56 = high at *
    generalize target % 2 ^ 56 = low at *
    rw [or_shiftLeft high hlow, or_shiftLeft next (by omega)]
    refine ⟨by omega, ?_, ?_⟩
    · exact bits_eq (low + high * 2 ^ 36) next 0 (by omega) (by omega) hnext
    · have hbind : bits (low + high * 2 ^ 36 + next * 2 ^ 51) 63 1 = 0 :=
        bits_eq (low + high * 2 ^ 36 + next * 2 ^ 51) 0 0 (by omega) (by omega) (by decide)
      have htop : bits (low + high * 2 ^ 36 + next * 2 ^ 51) 36 8 = high :=
        bits_eq low high (next * 2 ^ 7) (by omega) hlow hhigh
      have hbottom : bits (low + high * 2 ^ 36 + next * 2 ^ 51) 0 36 = low :=
        bits_eq 0 low (high + next * 2 ^ 15) (by omega) (by decide) hlow
      rw [decode, if_pos rfl, decodePtr64, hbind, if_neg (by decide), htop, hbottom]
      show Pointer.rebase _ _ = Pointer.rebase _ _
      congr 1
      omega
  | bind symbol addend =>
    obtain ⟨⟨ordinal, low⟩, hordinal, h⟩ := bind_eq_ok.mp h
    obtain rfl := Except.ok.inj h
    obtain ⟨hlt, stored, rest, hentry, hsum, hlow, hroom⟩ :=
      ordinalOf_spec (hplain symbol addend rfl) hordinal
    have hbyte : 0 ≤ stored ∧ stored ≤ 255 := of_decide_eq_true hroom
    have hstored : low &&& (2 ^ 8 - 1) = stored.toNat := by
      rw [Nat.and_two_pow_sub_one_eq_mod]
      change low = asU64 stored at hlow
      rw [hlow, asU64]
      omega
    dsimp only at hlt hentry ⊢
    have hsmall : stored.toNat < 2 ^ 8 := by omega
    have hcast : (stored.toNat : ℤ) = stored := Int.toNat_of_nonneg hbyte.1
    generalize stored.toNat = byte at *
    rw [hstored, or_shiftLeft byte (by omega), or_shiftLeft next (by omega),
      or_shiftLeft 1 (by omega)]
    refine ⟨by omega, ?_, ?_⟩
    · show bits _ 51 12 = next
      exact bits_eq (ordinal + byte * 2 ^ 24) next 1 (by omega) (by omega) hnext
    · have hbind : bits (ordinal + byte * 2 ^ 24 + next * 2 ^ 51 + 1 * 2 ^ 63) 63 1 = 1 :=
        bits_eq (ordinal + byte * 2 ^ 24 + next * 2 ^ 51) 1 0 (by omega) (by omega) (by decide)
      have haddend : bits (ordinal + byte * 2 ^ 24 + next * 2 ^ 51 + 1 * 2 ^ 63) 24 8 = byte :=
        bits_eq ordinal byte (next * 2 ^ 19 + 2 ^ 31) (by omega) (by omega) hsmall
      have hindex : bits (ordinal + byte * 2 ^ 24 + next * 2 ^ 51 + 1 * 2 ^ 63) 0 24 = ordinal :=
        bits_eq 0 ordinal (byte + next * 2 ^ 27 + 2 ^ 39) (by omega) (by decide) (by omega)
      refine ⟨ordinal, stored, rest, ?_, hentry, hsum⟩
      rw [decode, if_pos rfl, decodePtr64, hbind, if_pos rfl, haddend, hindex, hcast]

/-! ### arm64e -/

theorem two_pow_ordinalBits_le (format : PointerFormat) : 2 ^ format.ordinalBits ≤ 2 ^ 24 := by
  rw [PointerFormat.ordinalBits]
  split <;> decide

theorem bits_ordinal {word : ℕ} (hordinal : ordinal < 2 ^ format.ordinalBits) (rest : ℕ)
    (hword : word = ordinal + 2 ^ 24 * rest) : bits word 0 format.ordinalBits = ordinal := by
  have hdvd : 2 ^ format.ordinalBits ∣ 2 ^ 24 * rest := by
    refine Nat.dvd_mul_right_of_dvd (Nat.pow_dvd_pow 2 ?_) rest
    rw [PointerFormat.ordinalBits]
    split <;> decide
  obtain ⟨q, hq⟩ := hdvd
  rw [bits, Nat.pow_zero, Nat.div_one, hword, hq, Nat.add_mul_mod_self_left,
    Nat.mod_eq_of_lt hordinal]

/-- A word with a signing schema. -/
def signedWord (low : ℕ) (auth : PtrAuth) (next top : ℕ) : ℕ :=
  low + auth.diversity * 2 ^ 32 + auth.addressDiversity.toNat * 2 ^ 48 + auth.key * 2 ^ 49 +
    next * 2 ^ 51 + top * 2 ^ 62

theorem or_schemaBits (auth : PtrAuth) (hlow : low < 2 ^ 32) :
    low ||| schemaBits auth = low + (auth.diversity + auth.addressDiversity.toNat * 2 ^ 16 +
      auth.key * 2 ^ 17) * 2 ^ 32 := by
  have hkey : auth.key &&& 3 = auth.key := by
    rw [show (3 : ℕ) = 2 ^ 2 - 1 from rfl, Nat.and_two_pow_sub_one_eq_mod]
    exact Nat.mod_eq_of_lt auth.key_lt
  have hbool := Bool.toNat_lt auth.addressDiversity
  have hdiversity := auth.diversity_lt
  have hschema : schemaBits auth = (auth.diversity + auth.addressDiversity.toNat * 2 ^ 16 +
      auth.key * 2 ^ 17) <<< 32 := by
    rw [schemaBits, hkey, Nat.shiftLeft_eq auth.diversity 32,
      or_shiftLeft auth.addressDiversity.toNat (by omega), or_shiftLeft auth.key (by omega),
      Nat.shiftLeft_eq]
    omega
  rw [hschema, or_shiftLeft _ hlow]

theorem signedWord_fields {top : ℕ} (auth : PtrAuth) (hlow : low < 2 ^ 32) (hnext : next < 2 ^ 11)
    (htop : top < 4) :
    signedWord low auth next top < 2 ^ 64 ∧ bits (signedWord low auth next top) 0 32 = low ∧
      bits (signedWord low auth next top) 51 11 = next ∧
      bits (signedWord low auth next top) 62 1 = top % 2 ∧
      bits (signedWord low auth next top) 63 1 = top / 2 ∧
      schemaOf (signedWord low auth next top) = auth := by
  obtain ⟨key, address, diversity, hkey, hdiversity⟩ := auth
  have hbool := Bool.toNat_lt address
  rw [signedWord]
  dsimp only
  have hschema : schemaOf (low + diversity * 2 ^ 32 + address.toNat * 2 ^ 48 + key * 2 ^ 49 +
      next * 2 ^ 51 + top * 2 ^ 62) = ⟨key, address, diversity, hkey, hdiversity⟩ := by
    apply PtrAuth.ext
    · exact bits_eq (low + diversity * 2 ^ 32 + address.toNat * 2 ^ 48) key
        (next + top * 2 ^ 11) (by omega) (by omega) hkey
    · show decide (bits _ 48 1 = 1) = address
      rw [bits_eq (low + diversity * 2 ^ 32) address.toNat
        (key + next * 2 ^ 2 + top * 2 ^ 13) (by omega) (by omega) hbool]
      cases address <;> rfl
    · exact bits_eq low diversity (address.toNat + key * 2 + next * 2 ^ 3 + top * 2 ^ 14)
        (by omega) hlow hdiversity
  refine ⟨by omega, ?_, ?_, ?_, ?_, hschema⟩
  · exact bits_eq 0 low (diversity + address.toNat * 2 ^ 16 + key * 2 ^ 17 + next * 2 ^ 19 +
      top * 2 ^ 30) (by omega) (by decide) hlow
  · exact bits_eq (low + diversity * 2 ^ 32 + address.toNat * 2 ^ 48 + key * 2 ^ 49) next top
      (by omega) (by omega) hnext
  · exact bits_eq (low + diversity * 2 ^ 32 + address.toNat * 2 ^ 48 + key * 2 ^ 49 +
      next * 2 ^ 51) (top % 2) (top / 2) (by omega) (by omega) (Nat.mod_lt _ (by decide))
  · exact bits_eq (low + diversity * 2 ^ 32 + address.toNat * 2 ^ 48 + key * 2 ^ 49 +
      next * 2 ^ 51 + top % 2 * 2 ^ 62) (top / 2) 0 (by omega) (by omega) (by omega)

/-- A rebase that is not signed: a 43-bit target and its high byte. -/
theorem decode_plainRebase {high : ℕ} (hformat : format ≠ .ptr64) (hlow : low < 2 ^ 43)
    (hhigh : high < 2 ^ 8) (hnext : next < 2 ^ 11) :
    low ||| high <<< 43 ||| next <<< 51 < 2 ^ 64 ∧
      bits (low ||| high <<< 43 ||| next <<< 51) 51 11 = next ∧
      decode format imageBase (low ||| high <<< 43 ||| next <<< 51) =
        .rebase (if format = .arm64e then low + high * 2 ^ 56
          else (low + high * 2 ^ 56 + imageBase) % 2 ^ 64) none := by
  rw [or_shiftLeft high hlow, or_shiftLeft next (by omega)]
  have hsigned : bits (low + high * 2 ^ 43 + next * 2 ^ 51) 63 1 = 0 :=
    bits_eq (low + high * 2 ^ 43 + next * 2 ^ 51) 0 0 (by omega) (by omega) (by decide)
  have hbind : bits (low + high * 2 ^ 43 + next * 2 ^ 51) 62 1 = 0 :=
    bits_eq (low + high * 2 ^ 43 + next * 2 ^ 51) 0 0 (by omega) (by omega) (by decide)
  have htop : bits (low + high * 2 ^ 43 + next * 2 ^ 51) 43 8 = high :=
    bits_eq low high next (by omega) hlow hhigh
  have hbottom : bits (low + high * 2 ^ 43 + next * 2 ^ 51) 0 43 = low :=
    bits_eq 0 low (high + next * 2 ^ 8) (by omega) (by decide) hlow
  refine ⟨by omega, bits_eq (low + high * 2 ^ 43) next 0 (by omega) (by omega) hnext, ?_⟩
  rw [decode, if_neg hformat, decodeArm64e, hsigned, hbind, htop, hbottom]
  rfl

/-- A bind that is not signed: an ordinal and a 19-bit addend. -/
theorem decode_plainBind {addend : ℕ} (hformat : format ≠ .ptr64)
    (hordinal : ordinal < 2 ^ format.ordinalBits) (haddend : addend < 2 ^ 19)
    (hnext : next < 2 ^ 11) :
    ordinal ||| addend <<< 32 ||| next <<< 51 ||| 1 <<< 62 < 2 ^ 64 ∧
      bits (ordinal ||| addend <<< 32 ||| next <<< 51 ||| 1 <<< 62) 51 11 = next ∧
      decode format imageBase (ordinal ||| addend <<< 32 ||| next <<< 51 ||| 1 <<< 62) =
        .bind ordinal (signed 19 addend) none := by
  have hsmall := hordinal.trans_le (two_pow_ordinalBits_le format)
  rw [or_shiftLeft addend (by omega), or_shiftLeft next (by omega), or_shiftLeft 1 (by omega)]
  have hsigned : bits (ordinal + addend * 2 ^ 32 + next * 2 ^ 51 + 1 * 2 ^ 62) 63 1 = 0 :=
    bits_eq (ordinal + addend * 2 ^ 32 + next * 2 ^ 51 + 1 * 2 ^ 62) 0 0 (by omega) (by omega)
      (by decide)
  have hbind : bits (ordinal + addend * 2 ^ 32 + next * 2 ^ 51 + 1 * 2 ^ 62) 62 1 = 1 :=
    bits_eq (ordinal + addend * 2 ^ 32 + next * 2 ^ 51) 1 0 (by omega) (by omega) (by decide)
  have hstored : bits (ordinal + addend * 2 ^ 32 + next * 2 ^ 51 + 1 * 2 ^ 62) 32 19 = addend :=
    bits_eq ordinal addend (next + 2 ^ 11) (by omega) (by omega) haddend
  refine ⟨by omega, bits_eq (ordinal + addend * 2 ^ 32) next 1 (by omega) (by omega) hnext, ?_⟩
  rw [decode, if_neg hformat, decodeArm64e, hsigned, hbind, hstored,
    bits_ordinal hordinal (2 ^ 8 * addend + 2 ^ 27 * next + 2 ^ 38) (by omega)]
  rfl

theorem decode_signedRebase {offset : ℕ} (auth : PtrAuth) (hformat : format ≠ .ptr64)
    (hoffset : offset < 2 ^ 32) (hnext : next < 2 ^ 11) :
    offset ||| schemaBits auth ||| next <<< 51 ||| 1 <<< 63 < 2 ^ 64 ∧
      bits (offset ||| schemaBits auth ||| next <<< 51 ||| 1 <<< 63) 51 11 = next ∧
      decode format imageBase (offset ||| schemaBits auth ||| next <<< 51 ||| 1 <<< 63) =
        .rebase ((offset + imageBase) % 2 ^ 64) (some auth) := by
  have hbool := Bool.toNat_lt auth.addressDiversity
  have hkey := auth.key_lt
  have hdiversity := auth.diversity_lt
  have hword : offset ||| schemaBits auth ||| next <<< 51 ||| 1 <<< 63 =
      signedWord offset auth next 2 := by
    rw [or_schemaBits auth hoffset, or_shiftLeft next (by omega), or_shiftLeft 1 (by omega),
      signedWord]
    omega
  obtain ⟨hlt, hlow, hlink, hbind, hsigned, hschema⟩ :=
    signedWord_fields auth hoffset hnext (by decide : 2 < 4)
  rw [hword]
  refine ⟨hlt, hlink, ?_⟩
  rw [decode, if_neg hformat, decodeArm64e, hsigned, hbind, hlow, hschema]
  rfl

theorem decode_signedBind (auth : PtrAuth) (hformat : format ≠ .ptr64)
    (hordinal : ordinal < 2 ^ format.ordinalBits) (hnext : next < 2 ^ 11) :
    ordinal ||| schemaBits auth ||| next <<< 51 ||| 1 <<< 62 ||| 1 <<< 63 < 2 ^ 64 ∧
      bits (ordinal ||| schemaBits auth ||| next <<< 51 ||| 1 <<< 62 ||| 1 <<< 63) 51 11 = next ∧
      decode format imageBase
          (ordinal ||| schemaBits auth ||| next <<< 51 ||| 1 <<< 62 ||| 1 <<< 63) =
        .bind ordinal 0 (some auth) := by
  have hsmall := hordinal.trans_le (two_pow_ordinalBits_le format)
  have hbool := Bool.toNat_lt auth.addressDiversity
  have hkey := auth.key_lt
  have hdiversity := auth.diversity_lt
  have hword : ordinal ||| schemaBits auth ||| next <<< 51 ||| 1 <<< 62 ||| 1 <<< 63 =
      signedWord ordinal auth next 3 := by
    rw [or_schemaBits auth (by omega), or_shiftLeft next (by omega),
      or_shiftLeft (k := 62) 1 (by omega), or_shiftLeft (k := 63) 1 (by omega), signedWord]
    omega
  obtain ⟨hlt, -, hlink, hbind, hsigned, hschema⟩ :=
    signedWord_fields auth (by omega : ordinal < 2 ^ 32) hnext (by decide : 3 < 4)
  rw [hword]
  refine ⟨hlt, hlink, ?_⟩
  rw [decode, if_neg hformat, decodeArm64e, hsigned, hbind, hschema, bits_ordinal hordinal
    (auth.diversity * 2 ^ 8 + auth.addressDiversity.toNat * 2 ^ 24 + auth.key * 2 ^ 25 +
      next * 2 ^ 27 + 3 * 2 ^ 38) (by rw [signedWord]; omega)]
  rfl

/-- **An arm64e pointer says what its fixup says.** -/
theorem encodeArm64e_spec {chosen : PointerFormat} {imageBase : ℕ} (hformat : format ≠ .ptr64)
    (hchosen : chosen ≠ .ptr64) (hbase : imageBase < 2 ^ 64) (hnext : next < 2 ^ 11)
    (hplain : ∀ symbol addend, fixup.kind = .bind symbol addend → imports = .plain →
      inlineRoom format fixup addend = true)
    (h : encodeArm64e chosen imageBase fixup next (ordinalOf format imports table fixup) = .ok raw)
    :
    raw < 2 ^ 64 ∧ bits raw 51 11 = next ∧
      Says table fixup.kind fixup.auth (decode chosen imageBase raw) := by
  obtain ⟨address, kind, auth, typed⟩ := fixup
  cases kind with
  | rebase target =>
    have htarget : target < 2 ^ 64 := typed
    cases auth with
    | none =>
      rw [encodeArm64e] at h
      dsimp only at h
      rw [Nat.and_two_pow_sub_one_eq_mod, Nat.shiftRight_eq_div_pow] at h
      -- the number whose parts are stored
      have hvalue : (if chosen = .arm64e then target else (target + 2 ^ 64 - imageBase) % 2 ^ 64)
          < 2 ^ 64 := by
        split
        · exact htarget
        · exact Nat.mod_lt _ (Nat.two_pow_pos 64)
      have hback : target = if chosen = .arm64e
          then (if chosen = .arm64e then target else (target + 2 ^ 64 - imageBase) % 2 ^ 64)
          else ((if chosen = .arm64e then target else (target + 2 ^ 64 - imageBase) % 2 ^ 64) +
            imageBase) % 2 ^ 64 := by
        split
        · rfl
        · omega
      generalize (if chosen = .arm64e then target else (target + 2 ^ 64 - imageBase) % 2 ^ 64) =
        value at *
      split at h
      · exact nomatch h
      obtain rfl := Except.ok.inj h
      have hsplit := Nat.mod_add_div' value (2 ^ 56)
      obtain ⟨hlt, hlink, hdecode⟩ := decode_plainRebase imageBase hchosen
        (by omega : value % 2 ^ 56 < 2 ^ 43) (by omega : value / 2 ^ 56 < 2 ^ 8) hnext
      refine ⟨hlt, hlink, ?_⟩
      rw [hdecode, hsplit, ← hback]
      rfl
    | some auth =>
      rw [encodeArm64e] at h
      dsimp only at h
      split at h
      · next hreach =>
        obtain rfl := Except.ok.inj h
        obtain ⟨hlt, hlink, hdecode⟩ := decode_signedRebase imageBase auth hchosen
          hreach.2 hnext
        refine ⟨hlt, hlink, ?_⟩
        rw [hdecode, Nat.sub_add_cancel hreach.1, Nat.mod_eq_of_lt htarget]
        rfl
      · exact nomatch h
  | bind symbol addend =>
    rw [encodeArm64e] at h
    obtain ⟨⟨ordinal, low⟩, hordinal, h⟩ := bind_eq_ok.mp h
    obtain ⟨-, stored, rest, hentry, hsum, hlow, hroom⟩ :=
      ordinalOf_spec (hplain symbol addend rfl) hordinal
    dsimp only at h
    split at h
    · exact nomatch h
    · next hlt =>
      have hlt := Nat.lt_of_not_le hlt
      rw [inlineRoom, if_neg hformat] at hroom
      cases auth with
      | none =>
        obtain rfl := Except.ok.inj h
        have hrange : -2 ^ 18 ≤ stored ∧ stored < 2 ^ 18 := of_decide_eq_true hroom
        obtain ⟨hword, hlink, hdecode⟩ := decode_plainBind imageBase hchosen hlt
          (Nat.and_lt_two_pow low (by decide : 2 ^ 19 - 1 < 2 ^ 19)) hnext
        refine ⟨hword, hlink, ordinal, stored, rest, ?_, hentry, hsum⟩
        rw [hdecode]
        congr 1
        change low = asU64 stored at hlow
        rw [Nat.and_two_pow_sub_one_eq_mod, hlow, asU64, signed]
        split <;> omega
      | some auth =>
        obtain rfl := Except.ok.inj h
        have hzero : stored = 0 := of_decide_eq_true hroom
        obtain ⟨hword, hlink, hdecode⟩ := decode_signedBind imageBase auth hchosen hlt
          hnext
        refine ⟨hword, hlink, ordinal, stored, rest, ?_, hentry, hsum⟩
        rw [hdecode, hzero]

/-- **An encoded pointer says what its fixup says, and holds its link.** -/
theorem encode_spec {chosen : PointerFormat} {imageBase : ℕ}
    (hchosen : chosen = .ptr64 ↔ format = .ptr64) (hbase : imageBase < 2 ^ 64)
    (htable : table.length < 2 ^ 24) (hnext : next < 2 ^ format.nextBits)
    (hplain : ∀ symbol addend, fixup.kind = .bind symbol addend → imports = .plain →
      inlineRoom format fixup addend = true)
    (h : encode format chosen imageBase imports table fixup next = .ok raw) :
    raw < 2 ^ 64 ∧ nextField chosen raw = next ∧
      Says table fixup.kind (heldAuth format fixup) (decode chosen imageBase raw) := by
  rw [encode] at h
  rw [heldAuth]
  by_cases hformat : format = .ptr64
  · obtain rfl := hchosen.mpr hformat
    subst hformat
    rw [if_pos rfl] at h
    exact encodePtr64_spec imageBase hnext htable hplain h
  · have hchosen' : chosen ≠ .ptr64 := fun hptr => hformat (hchosen.mp hptr)
    rw [if_neg hformat] at h
    rw [PointerFormat.nextBits, if_neg hformat] at hnext
    rw [if_neg hformat, nextField, PointerFormat.nextBits, if_neg hchosen']
    exact encodeArm64e_spec hformat hchosen' hbase hnext hplain h

end Qld.Macho
