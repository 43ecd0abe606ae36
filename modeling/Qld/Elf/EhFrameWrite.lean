import Qld.Elf.EhFrameSpec

/-!
# Writing the unwind records

* `place`, `writeStep` — a record with its CIE pointer, and then with its relocations;
* `writeStep_spec`, `writeStep_copied`, `place_pointer` — what they write;
* `writeRecords_spec` — the bytes of each record are what its own step made of them.
-/

namespace Qld.Elf.EhFrame

open Qld.Lib

variable {e : Endian} {address : ℕ → ℕ} {patch : EhSection → Relocation → ℕ → Option Patch}

/-! ### One record -/

variable {bytes out : List UInt8}

theorem getRange_eq_some {data : List UInt8} {start stop : ℕ}
    (h : getRange data start stop = some bytes) :
    start ≤ stop ∧ stop ≤ data.length ∧ bytes = (data.drop start).take (stop - start) ∧
      bytes.length = stop - start := by
  rw [getRange, Option.ite_none_right_eq_some] at h
  obtain ⟨⟨hle, hlen⟩, hbytes⟩ := h
  obtain rfl := Option.some.inj hbytes
  refine ⟨hle, hlen, rfl, ?_⟩
  rw [List.length_take, List.length_drop]
  omega

theorem applyPatch_spec (out : List UInt8) (start : ℕ) (p : Patch) :
    (applyPatch out start p).length = out.length ∧
      ∀ k, ¬ (start ≤ k ∧ k < start + p.width) → (applyPatch out start p)[k]? = out[k]? := by
  rw [applyPatch]
  split
  · next bytes hbytes =>
    obtain ⟨old, hold, -⟩ := Option.bind_eq_some_iff.mp hbytes
    obtain ⟨-, hlen, -⟩ := getRange_eq_some hold
    split
    · next hwidth =>
      refine ⟨length_overwrite (by omega), fun k hk => ?_⟩
      rw [getElem?_overwrite (by omega), if_neg (by omega)]
    · exact ⟨rfl, fun k _ => rfl⟩
  · exact ⟨rfl, fun k _ => rfl⟩

/-- The bytes of a record that its relocations write. -/
def Patched (e : Endian) (address : ℕ → ℕ) (patch : EhSection → Relocation → ℕ → Option Patch)
    (s : EhSection) (r : Record) (k : ℕ) : Prop :=
  ∃ index, r.relocs.1 ≤ index ∧ index < r.relocs.2 ∧
    ∃ p, patchAt e address patch s r index = some p ∧ p.1 ≤ k ∧ k < p.1 + p.2.width

/-- Relocations change the bytes that they patch only. -/
theorem writeRelocs_spec (e : Endian) (address : ℕ → ℕ)
    (patch : EhSection → Relocation → ℕ → Option Patch) (s : EhSection) (r : Record) (out : List UInt8) :
    (writeRelocs e address patch s r out).length = out.length ∧
      ∀ k, ¬ Patched e address patch s r k →
        (writeRelocs e address patch s r out)[k]? = out[k]? := by
  have hone : ∀ (out : List UInt8) (index : ℕ), r.relocs.1 ≤ index → index < r.relocs.2 →
      (writeReloc e address patch s r out index).length = out.length ∧
        ∀ k, ¬ Patched e address patch s r k →
          (writeReloc e address patch s r out index)[k]? = out[k]? := by
    intro out index hle hlt
    rw [writeReloc]
    split
    · exact ⟨rfl, fun k _ => rfl⟩
    · next p hp =>
      obtain ⟨hlen, hframe⟩ := applyPatch_spec out p.1 p.2
      exact ⟨hlen, fun k hk => hframe k fun hin => hk ⟨index, hle, hlt, p, hp, hin⟩⟩
  have hfold : ∀ (l : List ℕ), (∀ index ∈ l, r.relocs.1 ≤ index ∧ index < r.relocs.2) →
      ∀ out : List UInt8, (l.foldl (writeReloc e address patch s r) out).length = out.length ∧
        ∀ k, ¬ Patched e address patch s r k →
          (l.foldl (writeReloc e address patch s r) out)[k]? = out[k]? := by
    intro l
    induction l with
    | nil => exact fun _ out => ⟨rfl, fun k _ => rfl⟩
    | cons index l ih =>
      intro hl out
      obtain ⟨hle, hlt⟩ := hl index List.mem_cons_self
      obtain ⟨hlen, hframe⟩ := hone out index hle hlt
      obtain ⟨hlen', hframe'⟩ := ih (fun x hx => hl x (List.mem_cons_of_mem _ hx))
        (writeReloc e address patch s r out index)
      rw [List.foldl_cons]
      exact ⟨hlen'.trans hlen, fun k hk => (hframe' k hk).trans (hframe k hk)⟩
  refine hfold _ (fun index hindex => ?_) out
  obtain ⟨hle, hlt⟩ := List.mem_range'_1.mp hindex
  exact ⟨hle, by omega⟩

theorem writePointer_spec (e : Endian) (address : ℕ → ℕ) (sections : List EhSection)
    (s : EhSection) (j : ℕ) (r : Record) (bytes out : List UInt8) :
    (writePointer e address sections s j r bytes out).length = out.length ∧
      ∀ k, ¬ (r.outOffset + lengthSize bytes ≤ k ∧ k < r.outOffset + lengthSize bytes + 4) →
        (writePointer e address sections s j r bytes out)[k]? = out[k]? := by
  rw [writePointer]
  split
  · exact ⟨rfl, fun k _ => rfl⟩
  · split
    · exact ⟨rfl, fun k _ => rfl⟩
    · dsimp only
      split
      · next hfits =>
        have hlen : ∀ pointer, r.outOffset + lengthSize bytes + (e.putU32 pointer).length ≤
            out.length := fun pointer => by rw [Endian.length_putU32]; exact hfits
        refine ⟨length_overwrite (hlen _), fun k hk => ?_⟩
        rw [getElem?_overwrite (hlen _), if_neg (by rw [Endian.length_putU32]; exact hk)]
      · exact ⟨rfl, fun k _ => rfl⟩

/-- A record with some bytes is placed: its bytes and its CIE pointer. -/
def place (e : Endian) (address : ℕ → ℕ) (sections : List EhSection) (s : EhSection)
    (out : List UInt8) (r : Record) (j : ℕ) (bytes : List UInt8) : List UInt8 :=
  if r.cie.isSome then writePointer e address sections s j r bytes (overwrite out r.outOffset bytes)
  else overwrite out r.outOffset bytes

/-- What is written for a live record with some bytes. -/
def writeStep (e : Endian) (address : ℕ → ℕ) (patch : EhSection → Relocation → ℕ → Option Patch)
    (sections : List EhSection) (s : EhSection) (out : List UInt8) (r : Record) (j : ℕ)
    (bytes : List UInt8) : List UInt8 :=
  writeRelocs e address patch s r (place e address sections s out r j bytes)

variable {sections : List EhSection} {s : EhSection} {r : Record}

theorem writeRecord_eq {j : ℕ} (hlive : r.live = true) (hbytes : s.bytes r = some bytes)
    (hfits : r.outOffset + r.size ≤ out.length) :
    writeRecord e address patch sections s out (r, j) =
      .ok (writeStep e address patch sections s out r j bytes) := by
  rw [writeRecord, if_pos hlive, hbytes]
  refine bind_eq_ok.mpr ⟨bytes, rfl, ?_⟩
  dsimp only
  rw [if_neg (by omega)]
  rfl

/-- The relocations of a record do not reach before it. -/
def Behind (e : Endian) (address : ℕ → ℕ) (patch : EhSection → Relocation → ℕ → Option Patch)
    (s : EhSection) (r : Record) (k : ℕ) : Prop :=
  ∀ index, r.relocs.1 ≤ index → index < r.relocs.2 →
    ∀ p, patchAt e address patch s r index = some p → k ≤ p.1

variable {k : ℕ}

theorem Behind.not_patched {n : ℕ} (h : Behind e address patch s r n) (hk : k < n) :
    ¬ Patched e address patch s r k := by
  rintro ⟨index, hle, hlt, p, hp, hstart, -⟩
  have := h index hle hlt p hp
  omega

theorem length_bytes (h : s.bytes r = some bytes) : bytes.length = r.size := by
  have hlen := (getRange_eq_some h).2.2.2
  omega

/-- Placing a record changes nothing before it, and copies its bytes but for the CIE pointer. -/
theorem place_spec (e : Endian) (address : ℕ → ℕ) (sections : List EhSection) (j : ℕ)
    (hbytes : s.bytes r = some bytes) (hfits : r.outOffset + r.size ≤ out.length) :
    (place e address sections s out r j bytes).length = out.length ∧
      (∀ k < r.outOffset, (place e address sections s out r j bytes)[k]? = out[k]?) ∧
      ∀ k < r.size, r.cie = none ∨ k < lengthSize bytes ∨ lengthSize bytes + 4 ≤ k →
        (place e address sections s out r j bytes)[r.outOffset + k]? = bytes[k]? := by
  have hsize := length_bytes hbytes
  have hover : (overwrite out r.outOffset bytes).length = out.length :=
    length_overwrite (by omega)
  have hbefore : ∀ k < r.outOffset, (overwrite out r.outOffset bytes)[k]? = out[k]? := by
    intro k hk
    rw [getElem?_overwrite (by omega), if_neg (by omega)]
  have hcopy : ∀ k < r.size, (overwrite out r.outOffset bytes)[r.outOffset + k]? = bytes[k]? := by
    intro k hk
    rw [getElem?_overwrite (by omega), if_pos (by omega), Nat.add_sub_cancel_left]
  obtain ⟨hlen, hframe⟩ := writePointer_spec e address sections s j r bytes
    (overwrite out r.outOffset bytes)
  rw [place]
  split
  · next hcie =>
    have hne : r.cie ≠ none := fun hnone => by rw [hnone] at hcie; exact nomatch hcie
    refine ⟨hlen.trans hover, fun k hk => ?_, fun k hk hpointer => ?_⟩
    · rw [hframe k (by omega), hbefore k hk]
    · have hout := hpointer.resolve_left hne
      rw [hframe _ (by omega), hcopy k hk]
  · exact ⟨hover, hbefore, fun k hk _ => hcopy k hk⟩

/-- **A record is written without a change before it.** -/
theorem writeStep_spec (sections : List EhSection) (j : ℕ) (hbytes : s.bytes r = some bytes)
    (hfits : r.outOffset + r.size ≤ out.length) (hbehind : Behind e address patch s r r.outOffset) :
    (writeStep e address patch sections s out r j bytes).length = out.length ∧
      ∀ k < r.outOffset, (writeStep e address patch sections s out r j bytes)[k]? = out[k]? := by
  obtain ⟨hlen, hframe, -⟩ := place_spec e address sections j hbytes hfits
  obtain ⟨hlen', hframe'⟩ := writeRelocs_spec e address patch s r
    (place e address sections s out r j bytes)
  refine ⟨hlen'.trans hlen, fun k hk => ?_⟩
  rw [writeStep, hframe' k (hbehind.not_patched hk), hframe k hk]

/-- **The bytes of a record are copied**, but for its CIE pointer and what its relocations
write. -/
theorem writeStep_copied (j : ℕ) (hbytes : s.bytes r = some bytes)
    (hfits : r.outOffset + r.size ≤ out.length) (hk : k < r.size)
    (hpointer : r.cie = none ∨ k < lengthSize bytes ∨ lengthSize bytes + 4 ≤ k)
    (hpatched : ¬ Patched e address patch s r (r.outOffset + k)) :
    (writeStep e address patch sections s out r j bytes)[r.outOffset + k]? = bytes[k]? := by
  rw [writeStep, (writeRelocs_spec e address patch s r _).2 _ hpatched]
  exact (place_spec e address sections j hbytes hfits).2.2 k hk hpointer

/-- The value of the CIE pointer from one address to another. -/
def pointerValue (field cieAddress : ℕ) : ℕ :=
  if wrappingSub field cieAddress ≤ U32_MAX then wrappingSub field cieAddress else 0

theorem pointerValue_lt (field cieAddress : ℕ) : pointerValue field cieAddress < 2 ^ 32 := by
  rw [pointerValue]
  split
  · next h =>
    rw [U32_MAX] at h
    omega
  · exact Nat.two_pow_pos 32

/-- The CIE pointer of a record in the output. -/
def pointerField (r : Record) (bytes out : List UInt8) : List UInt8 :=
  (out.drop (r.outOffset + lengthSize bytes)).take 4

/-- **The CIE pointer that is placed.** -/
theorem place_pointer {t : EhSection} {c : Record} {i j : ℕ} {spot : ℕ × ℕ}
    (hbytes : s.bytes r = some bytes) (hfits : r.outOffset + r.size ≤ out.length)
    (hlength : lengthSize bytes + 4 ≤ r.size) (hfde : r.cie.isSome)
    (hfind : find sections s.id = some i) (hcie : cieOf sections i j = some spot)
    (ht : sections[spot.1]? = some t) (hc : t.records[spot.2]? = some c) :
    pointerField r bytes (place e address sections s out r j bytes) = e.putU32 (pointerValue
      (wrappingAdd (wrappingAdd (address s.id) r.outOffset) (lengthSize bytes))
      (wrappingAdd (address t.id) c.outOffset)) := by
  have hsize := length_bytes hbytes
  have hover : (overwrite out r.outOffset bytes).length = out.length := length_overwrite (by omega)
  rw [place, if_pos hfde, writePointer, hfind, Option.getD_some, hcie]
  dsimp only
  rw [ht, Option.bind_some, hc, Option.map_some]
  dsimp only
  rw [if_pos (by omega)]
  apply List.ext_getElem?
  intro k
  rw [pointerField, List.getElem?_take, List.getElem?_drop]
  split
  · rw [getElem?_overwrite (by rw [Endian.length_putU32]; omega),
      if_pos (by rw [Endian.length_putU32]; omega), Nat.add_sub_cancel_left]
    rfl
  · rw [List.getElem?_eq_none (by rw [Endian.length_putU32]; omega)]

/-! ### All records -/

/-- **The bytes of each record are what its own step made of them**, from what the records before it
left. -/
theorem writeRecords_spec (sections : List EhSection) {n : ℕ} (l : List (Record × ℕ))
    (hfits : ∀ x ∈ l, x.1.live = true → ∃ bytes, s.bytes x.1 = some bytes ∧
      x.1.outOffset + x.1.size ≤ n ∧ Behind e address patch s x.1 x.1.outOffset)
    (horder : l.Pairwise fun x y => x.1.live = true → y.1.live = true →
      x.1.outOffset + x.1.size ≤ y.1.outOffset) :
    ∀ out : List UInt8, out.length = n →
      ∃ final, l.foldlM (writeRecord e address patch sections s) out = .ok final ∧
        final.length = n ∧
        (∀ k, (∀ x ∈ l, x.1.live = true → k < x.1.outOffset) → final[k]? = out[k]?) ∧
        ∀ l₁ x l₂, l = l₁ ++ x :: l₂ → x.1.live = true → ∀ bytes, s.bytes x.1 = some bytes →
          ∃ mid, l₁.foldlM (writeRecord e address patch sections s) out = .ok mid ∧
            mid.length = n ∧ ∀ k < x.1.outOffset + x.1.size, x.1.outOffset ≤ k →
              final[k]? = (writeStep e address patch sections s mid x.1 x.2 bytes)[k]? := by
  induction l with
  | nil =>
    intro out hout
    exact ⟨out, rfl, hout, fun k _ => rfl, fun l₁ x l₂ h => absurd h.symm (by simp)⟩
  | cons x l ih =>
    intro out hout
    obtain ⟨hafter, horder⟩ := List.pairwise_cons.mp horder
    have ih := ih (fun y hy => hfits y (List.mem_cons_of_mem _ hy)) horder
    by_cases hlive : x.1.live = true
    · obtain ⟨bytes, hbytes, hend, hbehind⟩ := hfits x List.mem_cons_self hlive
      obtain ⟨hlen, hframe⟩ := writeStep_spec sections x.2 hbytes (hout.symm ▸ hend) hbehind
      obtain ⟨final, hfold, hfinal, hkeep, hsteps⟩ := ih _ (hlen.trans hout)
      have hstep : writeRecord e address patch sections s out x = .ok _ :=
        writeRecord_eq hlive hbytes (hout.symm ▸ hend)
      refine ⟨final, ?_, hfinal, fun k hk => ?_, fun l₁ y l₂ hl hylive b hb => ?_⟩
      · rw [List.foldlM_cons]
        exact bind_eq_ok.mpr ⟨_, hstep, hfold⟩
      · rw [hkeep k fun y hy => hk y (List.mem_cons_of_mem _ hy)]
        exact hframe k (hk x List.mem_cons_self hlive)
      · cases l₁ with
        | nil =>
          obtain ⟨rfl, rfl⟩ := List.cons.inj hl
          obtain rfl := Option.some.inj (hbytes.symm.trans hb)
          refine ⟨out, rfl, hout, fun k hk _ => hkeep k fun z hz hzlive => ?_⟩
          exact hk.trans_le (hafter z hz hlive hzlive)
        | cons z l₁ =>
          obtain ⟨rfl, htail⟩ := List.cons.inj hl
          obtain ⟨mid, hmid, hrest⟩ := hsteps l₁ y l₂ htail hylive b hb
          exact ⟨mid, bind_eq_ok.mpr ⟨_, hstep, hmid⟩, hrest⟩
    · obtain ⟨final, hfold, hfinal, hkeep, hsteps⟩ := ih out hout
      have hstep : writeRecord e address patch sections s out x = .ok out := by
        rw [writeRecord, if_neg hlive]
        rfl
      refine ⟨final, ?_, hfinal, fun k hk => ?_, fun l₁ y l₂ hl hylive b hb => ?_⟩
      · rw [List.foldlM_cons]
        exact bind_eq_ok.mpr ⟨out, hstep, hfold⟩
      · exact hkeep k fun y hy => hk y (List.mem_cons_of_mem _ hy)
      · cases l₁ with
        | nil =>
          obtain ⟨rfl, rfl⟩ := List.cons.inj hl
          exact absurd hylive hlive
        | cons z l₁ =>
          obtain ⟨rfl, htail⟩ := List.cons.inj hl
          obtain ⟨mid, hmid, hrest⟩ := hsteps l₁ y l₂ htail hylive b hb
          exact ⟨mid, bind_eq_ok.mpr ⟨out, hstep, hmid⟩, hrest⟩

end Qld.Elf.EhFrame
