import Qld.Elf.EhFrameSplit
import Qld.Elf.EhFrameWrite

/-!
# The unwind records of the output

* `Correct` — what the output should be: the FDEs of live functions, records without gaps, no CIE
  twice, and CIE pointers that lead to a kept CIE of the same contents;
* `Reachable` — every FDE of the output lies behind the first copy of its CIE, by less than 4 GiB;
* `PointersKept` — no relocation of an FDE changes its CIE pointer;
* `ehFrame_correct_iff` — the output is correct exactly when both hold and the records that are kept
  fit.
-/

namespace Qld.Elf.EhFrame

open Qld.Lib

variable {e : Endian} {refs : Refs} {address : ℕ → ℕ}
  {patch : EhSection → Relocation → ℕ → Option Patch} {sections : List EhSection}

/-! ### What is to hold -/

/-- A record and its section. -/
def At (sections : List EhSection) (i j : ℕ) (s : EhSection) (r : Record) : Prop :=
  sections[i]? = some s ∧ s.records[j]? = some r

/-- The address of the CIE pointer of a record with some bytes. -/
def fieldAddress (address : ℕ → ℕ) (s : EhSection) (r : Record) (bytes : List UInt8) : ℕ :=
  wrappingAdd (wrappingAdd (address s.id) r.outOffset) (lengthSize bytes)

/-- The address of a record. -/
def recordAddress (address : ℕ → ℕ) (s : EhSection) (r : Record) : ℕ :=
  wrappingAdd (address s.id) r.outOffset

/-- The CIE pointer of an FDE leads to a live CIE with the contents of the FDE's own. -/
def LeadsToCopy (e : Endian) (refs : Refs) (address : ℕ → ℕ) (final : List EhSection)
    (t : EhSection) (r : Record) (c : ℕ) (bytes field : List UInt8) : Prop :=
  ∃ i j u q d, At final i j u q ∧ q.live = true ∧ q.cie = none ∧ t.records[c]? = some d ∧
    cieKey e refs u q = cieKey e refs t d ∧
    wrappingSub (fieldAddress address t r bytes) (e.getUint field) = recordAddress address u q

/-- The records of a section in the output, after it is written. -/
structure Written (e : Endian) (refs : Refs) (address : ℕ → ℕ)
    (patch : EhSection → Relocation → ℕ → Option Patch) (final : List EhSection) (t : EhSection)
    (out : List UInt8) : Prop where
  length : out.length = t.size
  /-- Records are copied, but for CIE pointers and what relocations write. -/
  copied : ∀ r ∈ t.records, r.live = true → ∀ bytes, t.bytes r = some bytes → ∀ k < r.size,
    r.cie = none ∨ k < lengthSize bytes ∨ lengthSize bytes + 4 ≤ k →
    ¬ Patched e address patch t r (r.outOffset + k) → out[r.outOffset + k]? = bytes[k]?
  pointer : ∀ r ∈ t.records, r.live = true → ∀ c, r.cie = some c → ∀ bytes,
    t.bytes r = some bytes → LeadsToCopy e refs address final t r c bytes (pointerField r bytes out)

/-- The output is as it should be. -/
structure Correct (e : Endian) (refs : Refs) (address : ℕ → ℕ)
    (patch : EhSection → Relocation → ℕ → Option Patch) (sections : List EhSection) : Prop where
  fde : ∀ i j s r, At sections i j s r → r.cie ≠ none →
    ∃ t q, At (finalize e refs sections) i j t q ∧ (q.live = true ↔
      ∃ pc, r.pcBegin = some pc ∧ ∃ target, relocSectionOf refs s pc = some target ∧
        refs.isLive target = true)
  tiles : ∀ t ∈ finalize e refs sections,
    Tiles 0 t.size ((t.records.filter Record.live).map fun r => (r.outOffset, r.size))
  distinct : ∀ i j t q i' j' t' q', At (finalize e refs sections) i j t q →
    At (finalize e refs sections) i' j' t' q' → q.live = true → q'.live = true →
    q.cie = none → q'.cie = none → cieKey e refs t q = cieKey e refs t' q' → (i, j) = (i', j')
  written : ∀ t ∈ finalize e refs sections, ∀ out : List UInt8, out.length = t.size →
    ∃ final, writeEhFrame e address patch (finalize e refs sections) t out = .ok final ∧
      Written e refs address patch (finalize e refs sections) t final

/-- What the placement of the sections has to be. -/
structure Placement (e : Endian) (refs : Refs) (address : ℕ → ℕ) (sections : List EhSection) :
    Prop where
  top : ∀ t ∈ finalize e refs sections, address t.id + t.size ≤ 2 ^ 64
  apart : ∀ (i j : ℕ) (t u : EhSection), (finalize e refs sections)[i]? = some t →
    (finalize e refs sections)[j]? = some u → i ≠ j →
    address t.id + t.size ≤ address u.id ∨ address u.id + u.size ≤ address t.id

/-- Every FDE of the output lies behind the first copy of its CIE, by less than 4 GiB. -/
def Reachable (e : Endian) (refs : Refs) (address : ℕ → ℕ) (sections : List EhSection) : Prop :=
  ∀ i j s r, At sections i j s r → fdeKept refs s r = true →
    ∀ c d key bytes, r.cie = some c → s.records[c]? = some d → cieKey e refs s d = some key →
      s.bytes r = some bytes →
      ∀ i' j' s' r', firstOf (usedCies e refs sections) key = some (i', j') →
        At sections i' j' s' r' →
        wrappingSub (wrappingAdd (wrappingAdd (address s.id) (outputOffset e refs sections i s j))
            (lengthSize bytes))
          (wrappingAdd (address s'.id) (outputOffset e refs sections i' s' j')) ≤ U32_MAX

/-- The relocations of an FDE of the output leave its CIE pointer as it was placed, over whatever the
records before it left. -/
def PointersKept (e : Endian) (refs : Refs) (address : ℕ → ℕ)
    (patch : EhSection → Relocation → ℕ → Option Patch) (sections : List EhSection) : Prop :=
  ∀ i j t q, At (finalize e refs sections) i j t q → q.live = true → q.cie.isSome → ∀ bytes,
    t.bytes q = some bytes → ∀ start out : List UInt8, start.length = t.size →
      (t.records.zipIdx.take j).foldlM
        (writeRecord e address patch (finalize e refs sections) t) start = .ok out →
      pointerField q bytes (writeStep e address patch (finalize e refs sections) t out q j bytes) =
        pointerField q bytes (place e address (finalize e refs sections) t out q j bytes)

/-- Relocations that do not patch a CIE pointer leave it as it is. -/
theorem pointersKept_of_not_patched (h : ∀ i j t q, At (finalize e refs sections) i j t q →
    q.live = true → q.cie.isSome → ∀ bytes, t.bytes q = some bytes →
    ∀ k < 4, ¬ Patched e address patch t q (q.outOffset + lengthSize bytes + k)) :
    PointersKept e refs address patch sections := by
  intro i j t q hat hlive hfde bytes hbytes start out _ _
  apply List.ext_getElem?
  intro k
  rw [pointerField, pointerField, List.getElem?_take, List.getElem?_take, List.getElem?_drop,
    List.getElem?_drop]
  split
  · next hk =>
    exact (writeRelocs_spec e address patch t q _).2 _ (h i j t q hat hlive hfde bytes hbytes k hk)
  · rfl

/-! ### Sections and their final state -/

section Final

variable (hwell : ∀ s ∈ sections, WellSplit s) (hfits : Fits e refs sections)

include hwell hfits

variable {i : ℕ} {t : EhSection}

theorem exists_of_finalize (ht : (finalize e refs sections)[i]? = some t) :
    ∃ s, sections[i]? = some s ∧ WellSplit s ∧ Finalized e refs sections i s t := by
  have hlen : (finalize e refs sections).length = sections.length := by
    rw [finalize_eq hwell, List.length_mapIdx]
  obtain ⟨hi, -⟩ := List.getElem?_eq_some_iff.mp ht
  obtain ⟨s, hs⟩ : ∃ s, sections[i]? = some s := ⟨_, List.getElem?_eq_getElem (hlen ▸ hi)⟩
  obtain ⟨t', ht', hfinal⟩ := finalize_getElem? hwell hfits hs
  obtain rfl := Option.some.inj (ht.symm.trans ht')
  exact ⟨s, hs, hwell s (List.mem_of_getElem? hs), hfinal⟩

theorem exists_of_at {j : ℕ} {q : Record} (h : At (finalize e refs sections) i j t q) :
    ∃ s r, At sections i j s r ∧ WellSplit s ∧ Finalized e refs sections i s t ∧
      q = finalRecord e refs sections i s j r := by
  obtain ⟨s, hs, hsplit, hfinal⟩ := exists_of_finalize hwell hfits h.1
  have hq := h.2
  rw [hfinal.records, Option.map_eq_some_iff] at hq
  obtain ⟨r, hr, rfl⟩ := hq
  exact ⟨s, r, ⟨hs, hr⟩, hsplit, hfinal, rfl⟩

theorem at_finalize {j : ℕ} {s : EhSection} {r : Record}
    (h : At sections i j s r) :
    ∃ t, At (finalize e refs sections) i j t (finalRecord e refs sections i s j r) ∧
      Finalized e refs sections i s t := by
  obtain ⟨t, ht, hfinal⟩ := finalize_getElem? hwell hfits h.1
  refine ⟨t, ⟨ht, ?_⟩, hfinal⟩
  rw [hfinal.records, h.2]
  rfl

theorem find_finalize (hids : (sections.map EhSection.id).Nodup)
    (ht : (finalize e refs sections)[i]? = some t) :
    find (finalize e refs sections) t.id = some i := by
  have hid : ∀ (k : ℕ) (u : EhSection), (finalize e refs sections)[k]? = some u →
      (sections.map EhSection.id)[k]? = some u.id := by
    intro k u hu
    obtain ⟨s, hs, -, hfinal⟩ := exists_of_finalize hwell hfits hu
    rw [List.getElem?_map, hs, hfinal.id]
    rfl
  obtain ⟨hi, hget⟩ := List.getElem?_eq_some_iff.mp ht
  rw [find, List.findIdx?_eq_some_iff_getElem]
  refine ⟨hi, by rw [hget]; exact decide_eq_true rfl, fun k hk => ?_⟩
  intro heq
  have hsame : ((finalize e refs sections)[k]).id = t.id := of_decide_eq_true heq
  have hk' := hid k _ (List.getElem?_eq_getElem (hk.trans hi))
  have hi' := hid i t ht
  rw [hsame] at hk'
  have hlt : i < (sections.map EhSection.id).length := (List.getElem?_eq_some_iff.mp hi').1
  have := (List.getElem?_inj (hk.trans hlt) hids).mp (hk'.trans hi'.symm)
  omega

end Final

variable {s t : EhSection} {r : Record}

theorem bytes_isSome (h : WellSplit s) (hr : r ∈ s.records) :
    ∃ bytes, s.bytes r = some bytes := by
  obtain ⟨stop, hstop, htiles⟩ := h.tiles
  have hle := (tiles_le _ _ htiles).2 _ (List.mem_map_of_mem hr)
  exact ⟨_, if_pos ⟨by omega, by omega⟩⟩

theorem reloc_eq_some {index : ℕ} {rel : Relocation} (h : s.reloc e index = some rel) :
    ∃ raw, s.relocs[index]? = some raw ∧ rel.offset = raw.offset := by
  obtain ⟨raw, hraw, h⟩ := Option.bind_eq_some_iff.mp h
  refine ⟨raw, hraw, ?_⟩
  split at h
  · rw [Option.some.inj h]
  · obtain ⟨field, -, rfl⟩ := Option.map_eq_some_iff.mp h
    rfl

variable {i j c : ℕ}

/-- The relocations of a record of the output do not reach before it. -/
theorem behind_final (hsplit : WellSplit s) (hfits : Fits e refs sections)
    (hs : sections[i]? = some s) (hfinal : Finalized e refs sections i s t)
    (hr : s.records[j]? = some r) (hkept : kept e refs sections i s j r = true) :
    Behind e address patch t (finalRecord e refs sections i s j r)
      (outputOffset e refs sections i s j) := by
  intro index hle hlt p hp
  rw [finalRecord_relocs] at hle hlt
  obtain ⟨rel, hrel, hp⟩ := Option.bind_eq_some_iff.mp hp
  obtain ⟨_, -, rfl⟩ := Option.map_eq_some_iff.mp hp
  obtain ⟨raw, hraw, hoffset⟩ := reloc_eq_some hrel
  rw [hfinal.relocs] at hraw
  have hmem := List.mem_of_getElem? hr
  obtain ⟨hlow, hhigh⟩ := hsplit.relocs r hmem index hle hlt raw hraw
  obtain ⟨hsmall, hsmall'⟩ := hsplit.small r hmem
  have hout := outputOffset_add_le_size hr hkept
  have hsize := hfits i s hs
  rw [U32_MAX] at hsmall hsmall' hsize
  show outputOffset e refs sections i s j ≤ localOffset _ rel
  rw [localOffset, finalRecord_outOffset _ _ _ _ _ _ _ hkept, finalRecord_offset, hoffset,
    wrappingSub_of_le hlow (by omega), wrappingAdd_of_lt (by omega)]
  omega

/-! ### The kept CIE of an FDE -/

theorem cieKey_final (hfinal : Finalized e refs sections i s t) (r : Record) :
    cieKey e refs t (finalRecord e refs sections i s j r) = cieKey e refs s r :=
  cieKey_congr hfinal.data hfinal.file hfinal.rela hfinal.relocs (finalRecord_offset ..)
    (finalRecord_size ..) (finalRecord_relocs ..)

theorem bytes_final (hfinal : Finalized e refs sections i s t) (r : Record) :
    t.bytes (finalRecord e refs sections i s j r) = s.bytes r := by
  rw [EhSection.bytes, EhSection.bytes, hfinal.data, finalRecord_offset, finalRecord_size]

theorem cieUsed_of_fdeKept (hr : s.records[j]? = some r) (hkept : fdeKept refs s r = true)
    (hcie : r.cie = some c) : cieUsed refs s c = true := by
  refine List.any_eq_true.mpr ⟨r, List.mem_of_getElem? hr, ?_⟩
  rw [hkept, hcie]
  exact decide_eq_true rfl

theorem kept_of_isSome (hcie : r.cie = some c) :
    kept e refs sections i s j r = fdeKept refs s r := by
  rw [kept, hcie]
  rfl

/-- **The kept CIE of an FDE of the output.** -/
theorem cieOf_finalize (hwell : ∀ s ∈ sections, WellSplit s) (hfits : Fits e refs sections)
    (hat : At sections i j s r)
    (hkept : fdeKept refs s r = true) (hcie : r.cie = some c) :
    ∃ d key, s.records[c]? = some d ∧ cieKey e refs s d = some key ∧
      ∃ i' j' s' r', firstOf (usedCies e refs sections) key = some (i', j') ∧
        At sections i' j' s' r' ∧ r'.cie = none ∧ cieKey e refs s' r' = some key ∧
        kept e refs sections i' s' j' r' = true ∧
        cieOf (finalize e refs sections) i j = some (i', j') := by
  have hsplit := hwell s (List.mem_of_getElem? hat.1)
  obtain ⟨-, d, hd, hnone⟩ := hsplit.fde j r c hat.2 hcie
  obtain ⟨bytes, hbytes⟩ := bytes_isSome hsplit (List.mem_of_getElem? hd)
  obtain ⟨key, hkey⟩ : ∃ key, cieKey e refs s d = some key := by
    rw [cieKey, hbytes]
    exact ⟨_, rfl⟩
  have hused := cieUsed_of_fdeKept hat.2 hkept hcie
  have hfirst := copyOf_getD hat.1 hd hnone hused hkey
  obtain ⟨⟨i', j'⟩, hcopy⟩ : ∃ first, (copyOf e refs sections i s c d).getD (i, c) = first :=
    ⟨_, rfl⟩
  rw [hcopy] at hfirst
  obtain ⟨s', r', hs', hr', hcie', hkey', -, hkept'⟩ := kept_firstOf hfirst
  refine ⟨d, key, hd, hkey, i', j', s', r', hfirst, ⟨hs', hr'⟩, hcie', hkey', hkept', ?_⟩
  obtain ⟨t, ht, hfinal⟩ := at_finalize hwell hfits hat
  rw [cieOf, ht.1, Option.bind_some, ht.2, Option.bind_some, finalRecord_cie, hcie,
    Option.bind_some, hfinal.records, hd, Option.map_some, Option.map_some,
    finalRecord_canonical, hcopy]

/-! ### The written section -/

/-- **A section is written.** -/
theorem writeEhFrame_spec (address : ℕ → ℕ) (patch : EhSection → Relocation → ℕ → Option Patch)
    (hwell : ∀ s ∈ sections, WellSplit s) (hfits : Fits e refs sections)
    (hids : (sections.map EhSection.id).Nodup) (hs : sections[i]? = some s)
    (ht : (finalize e refs sections)[i]? = some t) (hfinal : Finalized e refs sections i s t)
    (out : List UInt8) (hout : out.length = t.size) :
    ∃ final, writeEhFrame e address patch (finalize e refs sections) t out = .ok final ∧
      final.length = t.size ∧
      (∀ r ∈ t.records, r.live = true → ∀ bytes, t.bytes r = some bytes → ∀ k < r.size,
        r.cie = none ∨ k < lengthSize bytes ∨ lengthSize bytes + 4 ≤ k →
        ¬ Patched e address patch t r (r.outOffset + k) →
        final[r.outOffset + k]? = bytes[k]?) ∧
      ∀ (j : ℕ) (r : Record), t.records[j]? = some r → r.live = true → r.cie.isSome →
        ∀ bytes, t.bytes r = some bytes → ∀ i' j' u q,
          cieOf (finalize e refs sections) i j = some (i', j') →
          At (finalize e refs sections) i' j' u q →
          (pointerField r bytes final).length = 4 ∧ ∃ mid, (t.records.zipIdx.take j).foldlM
              (writeRecord e address patch (finalize e refs sections) t) out = .ok mid ∧
            pointerField r bytes final = pointerField r bytes
              (writeStep e address patch (finalize e refs sections) t mid r j bytes) ∧
            pointerField r bytes (place e address (finalize e refs sections) t mid r j bytes) =
              e.putU32 (pointerValue (fieldAddress address t r bytes)
                (recordAddress address u q)) := by
  have hsplit := hwell s (List.mem_of_getElem? hs)
  -- every live record has bytes, ends inside the output, and keeps its relocations to itself
  have hrecord : ∀ (j : ℕ) (q : Record), t.records[j]? = some q → q.live = true →
      ∃ r, s.records[j]? = some r ∧ q = finalRecord e refs sections i s j r ∧
        kept e refs sections i s j r = true ∧
        q.outOffset = outputOffset e refs sections i s j := by
    intro j q hq hlive
    rw [hfinal.records, Option.map_eq_some_iff] at hq
    obtain ⟨r, hr, rfl⟩ := hq
    rw [finalRecord_live] at hlive
    exact ⟨r, hr, rfl, hlive, finalRecord_outOffset _ _ _ _ _ _ _ hlive⟩
  have hinside : ∀ x ∈ t.records.zipIdx, x.1.live = true → ∃ bytes, t.bytes x.1 = some bytes ∧
      x.1.outOffset + x.1.size ≤ t.size ∧ Behind e address patch t x.1 x.1.outOffset := by
    rintro ⟨q, j⟩ hx hlive
    obtain ⟨r, hr, rfl, hkept, hoffset⟩ :=
      hrecord j q (List.mk_mem_zipIdx_iff_getElem?.mp hx) hlive
    obtain ⟨bytes, hbytes⟩ := bytes_isSome hsplit (List.mem_of_getElem? hr)
    refine ⟨bytes, (bytes_final hfinal r).trans hbytes, ?_, ?_⟩
    · rw [hoffset, finalRecord_size, hfinal.size]
      exact outputOffset_add_le_size hr hkept
    · rw [hoffset]
      exact behind_final hsplit hfits hs hfinal hr hkept
  have horder : t.records.zipIdx.Pairwise fun x y => x.1.live = true → y.1.live = true →
      x.1.outOffset + x.1.size ≤ y.1.outOffset := by
    refine List.pairwise_iff_getElem.mpr fun j k hj hk hjk hx hy => ?_
    rw [List.length_zipIdx] at hj hk
    rw [List.getElem_zipIdx] at hx hy ⊢
    rw [List.getElem_zipIdx]
    obtain ⟨r, hr, hq, hkept, hoffset⟩ := hrecord j _ (List.getElem?_eq_getElem hj) hx
    obtain ⟨r', hr', hq', hkept', hoffset'⟩ := hrecord k _ (List.getElem?_eq_getElem hk) hy
    have hsize : (t.records[j]).size = r.size := by rw [hq, finalRecord_size]
    show (t.records[j]).outOffset + (t.records[j]).size ≤ (t.records[k]).outOffset
    rw [hoffset, hoffset', hsize]
    exact outputOffset_add_le hr hkept hjk
  obtain ⟨final, hwrite, hlength, -, hsteps⟩ :=
    writeRecords_spec (finalize e refs sections) _ hinside horder out hout
  -- the step of the record at an index
  have hstepAt : ∀ (j : ℕ) (q : Record), t.records[j]? = some q → q.live = true → ∀ bytes,
      t.bytes q = some bytes → q.outOffset + q.size ≤ t.size ∧
        ∃ mid, (t.records.zipIdx.take j).foldlM
            (writeRecord e address patch (finalize e refs sections) t) out = .ok mid ∧
          mid.length = t.size ∧ ∀ k < q.outOffset + q.size, q.outOffset ≤ k → final[k]? =
            (writeStep e address patch (finalize e refs sections) t mid q j bytes)[k]? := by
    intro j q hq hlive bytes hbytes
    have hmem := List.mk_mem_zipIdx_iff_getElem?.mpr hq
    obtain ⟨-, -, hend, -⟩ := hinside (q, j) hmem hlive
    obtain ⟨hlt, hget⟩ := List.getElem?_eq_some_iff.mp
      (show t.records.zipIdx[j]? = some (q, j) by rw [List.getElem?_zipIdx, hq]; simp)
    have hcut : t.records.zipIdx =
        t.records.zipIdx.take j ++ (q, j) :: t.records.zipIdx.drop (j + 1) := by
      rw [← hget, ← List.drop_eq_getElem_cons hlt, List.take_append_drop]
    exact ⟨hend, hsteps _ _ _ hcut hlive bytes hbytes⟩
  refine ⟨final, hwrite, hlength, ?_, ?_⟩
  · intro r hr hlive bytes hbytes k hk hpointer hpatched
    obtain ⟨j, hj⟩ := List.getElem?_of_mem hr
    obtain ⟨hend, mid, -, hmid, hstep⟩ := hstepAt j r hj hlive bytes hbytes
    rw [hstep _ (by omega) (by omega)]
    exact writeStep_copied j hbytes (by omega) hk hpointer hpatched
  · intro j q hq hlive hfde bytes hbytes i' j' u c hcie hc
    obtain ⟨hend, mid, hfold, hmid, hstep⟩ := hstepAt j q hq hlive bytes hbytes
    obtain ⟨r, hr, rfl, hkept, hoffset⟩ := hrecord j q hq hlive
    have hlen := hsplit.length r (List.mem_of_getElem? hr) bytes
      ((bytes_final hfinal r).symm.trans hbytes)
    rw [← finalRecord_size e refs sections i s j r] at hlen
    refine ⟨?_, mid, hfold, ?_, ?_⟩
    · rw [pointerField, List.length_take, List.length_drop]
      omega
    · apply List.ext_getElem?
      intro k
      rw [pointerField, pointerField, List.getElem?_take, List.getElem?_take, List.getElem?_drop,
        List.getElem?_drop]
      split
      · exact hstep _ (by omega) (by omega)
      · rfl
    · exact place_pointer hbytes (by omega) hlen hfde (find_finalize hwell hfits hids ht) hcie hc.1
        hc.2

/-! ### The result -/

theorem wrappingAdd_lt (a b : ℕ) : wrappingAdd a b < 2 ^ 64 := Nat.mod_lt _ (Nat.two_pow_pos 64)

theorem fieldAddress_final (address : ℕ → ℕ) (hfinal : Finalized e refs sections i s t)
    (hkept : kept e refs sections i s j r = true) (bytes : List UInt8) :
    fieldAddress address t (finalRecord e refs sections i s j r) bytes =
      wrappingAdd (wrappingAdd (address s.id) (outputOffset e refs sections i s j))
        (lengthSize bytes) := by
  rw [fieldAddress, hfinal.id, finalRecord_outOffset _ _ _ _ _ _ _ hkept]

theorem recordAddress_final (address : ℕ → ℕ) (hfinal : Finalized e refs sections i s t)
    (hkept : kept e refs sections i s j r = true) :
    recordAddress address t (finalRecord e refs sections i s j r) =
      wrappingAdd (address s.id) (outputOffset e refs sections i s j) := by
  rw [recordAddress, hfinal.id, finalRecord_outOffset _ _ _ _ _ _ _ hkept]

theorem wrappingSub_wrappingSub {a b : ℕ} (ha : a < 2 ^ 64) (hb : b < 2 ^ 64) :
    wrappingSub a (wrappingSub a b) = b := by
  rw [wrappingSub, wrappingSub]
  omega

/-- A field leads back to an address when that is less than 4 GiB before it, and is the value of the
pointer. -/
theorem readBack_iff {field cieAddress : ℕ} {bytes : List UInt8} (hfield : field < 2 ^ 64)
    (haddress : cieAddress < 2 ^ 64) (hlen : bytes.length = 4) :
    wrappingSub field (e.getUint bytes) = cieAddress ↔
      wrappingSub field cieAddress ≤ U32_MAX ∧ bytes = e.putU32 (pointerValue field cieAddress) := by
  have hlt := Endian.getUint_lt (e := e) hlen
  refine ⟨fun h => ?_, fun h => ?_⟩
  · have hdistance : wrappingSub field cieAddress = e.getUint bytes := by
      rw [← h]
      exact wrappingSub_wrappingSub hfield (by omega)
    have hnear : wrappingSub field cieAddress ≤ U32_MAX := by
      rw [hdistance, U32_MAX]
      omega
    refine ⟨hnear, ?_⟩
    rw [pointerValue, if_pos hnear, hdistance, Endian.putU32_getUint hlen]
  · rw [h.2, Endian.getUint_putU32 _ (pointerValue_lt _ _), pointerValue, if_pos h.1]
    exact wrappingSub_wrappingSub hfield haddress

theorem distinct_finalize (hwell : ∀ s ∈ sections, WellSplit s) (hfits : Fits e refs sections)
    {i' j' : ℕ} {t' : EhSection}
    {q q' : Record} (h : At (finalize e refs sections) i j t q)
    (h' : At (finalize e refs sections) i' j' t' q') (hlive : q.live = true)
    (hlive' : q'.live = true) (hcie : q.cie = none) (hcie' : q'.cie = none)
    (hkeys : cieKey e refs t q = cieKey e refs t' q') : (i, j) = (i', j') := by
  obtain ⟨s, r, hat, hsplit, hfinal, rfl⟩ := exists_of_at hwell hfits h
  obtain ⟨s', r', hat', -, hfinal', rfl⟩ := exists_of_at hwell hfits h'
  rw [finalRecord_live] at hlive hlive'
  rw [finalRecord_cie] at hcie hcie'
  rw [cieKey_final hfinal, cieKey_final hfinal'] at hkeys
  obtain ⟨bytes, hbytes⟩ := bytes_isSome hsplit (List.mem_of_getElem? hat.2)
  obtain ⟨key, hkey⟩ : ∃ key, cieKey e refs s r = some key := by
    rw [cieKey, hbytes]
    exact ⟨_, rfl⟩
  have hfirst := firstOf_kept hat.1 hat.2 hcie hkey hlive
  have hfirst' := firstOf_kept hat'.1 hat'.2 hcie' (hkeys.symm.trans hkey) hlive'
  exact Option.some.inj (hfirst.symm.trans hfirst')

theorem fdeKept_iff (hcie : r.cie ≠ none) :
    fdeKept refs s r = true ↔ ∃ pc, r.pcBegin = some pc ∧
      ∃ target, relocSectionOf refs s pc = some target ∧ refs.isLive target = true := by
  rw [fdeKept, Option.isSome_iff_ne_none.mpr hcie, Bool.true_and, Option.any_eq_true]
  refine exists_congr fun pc => and_congr_right fun _ => ?_
  rw [pointsLive, Option.any_eq_true]

/-- **The CIE pointer of an FDE is right** exactly when the first copy of its CIE is within reach and
the relocations keep the pointer. -/
theorem leadsToCopy_iff (hwell : ∀ s ∈ sections, WellSplit s) (hfits : Fits e refs sections)
    (hids : (sections.map EhSection.id).Nodup) (hat : At sections i j s r)
    (ht : (finalize e refs sections)[i]? = some t) (hfinal : Finalized e refs sections i s t)
    (hkept : fdeKept refs s r = true) (hcie : r.cie = some c) {d : Record} {key : CieKey}
    (hd : s.records[c]? = some d) (hkey : cieKey e refs s d = some key) {bytes : List UInt8}
    (hbytes : s.bytes r = some bytes) {i' j' : ℕ} {s' : EhSection} {r' : Record}
    (hfirst : firstOf (usedCies e refs sections) key = some (i', j'))
    (hat' : At sections i' j' s' r') {out final : List UInt8} (hout : out.length = t.size)
    (hwrite : writeEhFrame e address patch (finalize e refs sections) t out = .ok final) :
    ∃ mid, (t.records.zipIdx.take j).foldlM
        (writeRecord e address patch (finalize e refs sections) t) out = .ok mid ∧
      (LeadsToCopy e refs address (finalize e refs sections) t
          (finalRecord e refs sections i s j r) c bytes
          (pointerField (finalRecord e refs sections i s j r) bytes final) ↔
        wrappingSub (wrappingAdd (wrappingAdd (address s.id) (outputOffset e refs sections i s j))
            (lengthSize bytes))
          (wrappingAdd (address s'.id) (outputOffset e refs sections i' s' j')) ≤ U32_MAX ∧
        pointerField (finalRecord e refs sections i s j r) bytes
            (writeStep e address patch (finalize e refs sections) t mid
              (finalRecord e refs sections i s j r) j bytes) =
          pointerField (finalRecord e refs sections i s j r) bytes
            (place e address (finalize e refs sections) t mid
              (finalRecord e refs sections i s j r) j bytes)) := by
  have hlive : kept e refs sections i s j r = true := (kept_of_isSome hcie).trans hkept
  obtain ⟨d', key', hd', hkey', i₁, j₁, s₁, r₁, hfirst₁, hat₁, hcie', hcopy, hkept', hof⟩ :=
    cieOf_finalize (e := e) hwell hfits hat hkept hcie
  obtain rfl := Option.some.inj (hd.symm.trans hd')
  obtain rfl := Option.some.inj (hkey.symm.trans hkey')
  obtain ⟨rfl, rfl⟩ := Prod.mk.inj (Option.some.inj (hfirst.symm.trans hfirst₁))
  obtain rfl := Option.some.inj (hat'.1.symm.trans hat₁.1)
  obtain rfl := Option.some.inj (hat'.2.symm.trans hat₁.2)
  obtain ⟨t', ht', hfinal'⟩ := at_finalize hwell hfits hat'
  have hq : t.records[j]? = some (finalRecord e refs sections i s j r) := by
    rw [hfinal.records, hat.2]
    rfl
  have hd₂ : t.records[c]? = some (finalRecord e refs sections i s c d) := by
    rw [hfinal.records, hd]
    rfl
  obtain ⟨final', hwrite', -, -, hpointer⟩ :=
    writeEhFrame_spec address patch hwell hfits hids hat.1 ht hfinal out hout
  obtain rfl := Except.ok.inj (hwrite.symm.trans hwrite')
  obtain ⟨hlen, mid, hfold, hstep, hplaced⟩ := hpointer j _ hq (by rw [finalRecord_live, hlive])
    (by rw [finalRecord_cie, hcie]; rfl) bytes ((bytes_final hfinal r).trans hbytes) _ _ t' _ hof ht'
  have hfield : fieldAddress address t (finalRecord e refs sections i s j r) bytes < 2 ^ 64 :=
    wrappingAdd_lt _ _
  have haddress : recordAddress address t' (finalRecord e refs sections i' s' j' r') < 2 ^ 64 :=
    wrappingAdd_lt _ _
  refine ⟨mid, hfold, ?_⟩
  rw [← hstep, hplaced, ← fieldAddress_final address hfinal hlive,
    ← recordAddress_final address hfinal' hkept',
    ← readBack_iff hfield haddress hlen]
  have hlive' : (finalRecord e refs sections i' s' j' r').live = true := by
    rw [finalRecord_live, hkept']
  have hnone : (finalRecord e refs sections i' s' j' r').cie = none := by rw [finalRecord_cie, hcie']
  have hkeys : cieKey e refs t' (finalRecord e refs sections i' s' j' r') =
      cieKey e refs t (finalRecord e refs sections i s c d) := by
    rw [cieKey_final hfinal, cieKey_final hfinal', hkey, hcopy]
  refine ⟨?_, fun h => ⟨i', j', t', _, _, ht', hlive', hnone, hd₂, hkeys, h⟩⟩
  rintro ⟨i₂, j₂, u, q, d', hu, hulive, hucie, hd', hukey, hback⟩
  obtain rfl := Option.some.inj (hd₂.symm.trans hd')
  -- only one CIE of the output has the contents
  obtain ⟨rfl, rfl⟩ := Prod.mk.inj (distinct_finalize hwell hfits hu ht' hulive hlive' hucie hnone
    (hukey.trans hkeys.symm))
  obtain rfl := Option.some.inj (hu.1.symm.trans ht'.1)
  obtain rfl := Option.some.inj (hu.2.symm.trans ht'.2)
  exact hback

/-- The output of well-split sections is correct exactly when the records fit, every FDE lies behind
the first copy of its CIE, by less than 4 GiB, and keeps its CIE pointer. -/
theorem correct_iff (hwell : ∀ s ∈ sections, WellSplit s)
    (hids : (sections.map EhSection.id).Nodup) :
    Correct e refs address patch sections ↔ Fits e refs sections ∧
      Reachable e refs address sections ∧ PointersKept e refs address patch sections := by
  refine ⟨fun hcorrect => ?_, fun ⟨hfits, hreach, hkeeps⟩ => ⟨?_, ?_, ?_, ?_⟩⟩
  · have hfits := fits_of_tiles hwell hcorrect.tiles
    refine ⟨hfits, ?_, ?_⟩
    · intro i j s r hat hkept c d key bytes hcie hd hkey hbytes i' j' s' r' hfirst hat'
      obtain ⟨t, ht, hfinal⟩ := at_finalize hwell hfits hat
      obtain ⟨final, hwrite, hwritten⟩ := hcorrect.written t (List.mem_of_getElem? ht.1)
        (List.replicate t.size 0) List.length_replicate
      obtain ⟨mid, -, hiff⟩ := leadsToCopy_iff hwell hfits hids hat ht.1 hfinal hkept hcie hd hkey
        hbytes hfirst hat' List.length_replicate hwrite
      refine (hiff.mp (hwritten.pointer _ (List.mem_of_getElem? ht.2) ?_ c ?_ bytes ?_)).1
      · rw [finalRecord_live, kept_of_isSome hcie, hkept]
      · rw [finalRecord_cie, hcie]
      · rw [bytes_final hfinal, hbytes]
    · intro i j t q hq hlive hfde bytes hbytes start out hstart hfold
      obtain ⟨s, r, hat, -, hfinal, rfl⟩ := exists_of_at hwell hfits hq
      obtain ⟨c, hcie⟩ := Option.isSome_iff_exists.mp hfde
      have hcie' := (finalRecord_cie e refs sections i s j r).symm.trans hcie
      have hkept := (kept_of_isSome hcie').symm.trans ((finalRecord_live ..).symm.trans hlive)
      obtain ⟨d, key, hd, hkey, i', j', s', r', hfirst, hat', -⟩ :=
        cieOf_finalize (e := e) hwell hfits hat hkept hcie'
      obtain ⟨final, hwrite, hwritten⟩ :=
        hcorrect.written t (List.mem_of_getElem? hq.1) start hstart
      obtain ⟨mid, hmid, hiff⟩ := leadsToCopy_iff hwell hfits hids hat hq.1 hfinal hkept hcie' hd hkey
        ((bytes_final hfinal r).symm.trans hbytes) hfirst hat' hstart hwrite
      obtain rfl := Except.ok.inj (hfold.symm.trans hmid)
      exact (hiff.mp (hwritten.pointer _ (List.mem_of_getElem? hq.2) hlive c hcie bytes hbytes)).2
  · intro i j s r hat hcie
    obtain ⟨t, ht, -⟩ := at_finalize hwell hfits hat
    refine ⟨t, _, ht, ?_⟩
    obtain ⟨c, hc⟩ := Option.ne_none_iff_exists'.mp hcie
    rw [finalRecord_live, kept_of_isSome hc, fdeKept_iff hcie]
  · intro t ht
    obtain ⟨i, hi⟩ := List.getElem?_of_mem ht
    obtain ⟨s, -, -, hfinal⟩ := exists_of_finalize hwell hfits hi
    exact hfinal.tiles
  · intro i j t q i' j' t' q' h h' hlive hlive' hcie hcie' hkeys
    exact distinct_finalize hwell hfits h h' hlive hlive' hcie hcie' hkeys
  · intro t ht out hout
    obtain ⟨i, hi⟩ := List.getElem?_of_mem ht
    obtain ⟨s, hs, hsplit, hfinal⟩ := exists_of_finalize hwell hfits hi
    obtain ⟨final, hwrite, hlength, hcopied, -⟩ := writeEhFrame_spec address patch hwell hfits hids
      hs hi hfinal out hout
    refine ⟨final, hwrite, hlength, hcopied, ?_⟩
    intro q hq hlive c hcie bytes hbytes
    obtain ⟨j, hj⟩ := List.getElem?_of_mem hq
    obtain ⟨s₀, r, hat, -, -, rfl⟩ := exists_of_at hwell hfits ⟨hi, hj⟩
    obtain rfl := Option.some.inj (hs.symm.trans hat.1)
    have hcie' := (finalRecord_cie e refs sections i s j r).symm.trans hcie
    have hkept := (kept_of_isSome hcie').symm.trans ((finalRecord_live ..).symm.trans hlive)
    have hbytes' := (bytes_final hfinal r).symm.trans hbytes
    obtain ⟨d, key, hd, hkey, i', j', s', r', hfirst, hat', -⟩ :=
      cieOf_finalize (e := e) hwell hfits hat hkept hcie'
    obtain ⟨mid, hmid, hiff⟩ := leadsToCopy_iff hwell hfits hids hat hi hfinal hkept hcie' hd hkey
      hbytes' hfirst hat' hout hwrite
    exact hiff.mpr ⟨hreach i j s r hat hkept c d key bytes hcie' hd hkey hbytes' i' j' s' r' hfirst
      hat', hkeeps i j t _ ⟨hi, hj⟩ hlive (by rw [hcie]; rfl) bytes hbytes out mid hout hmid⟩

/-- A CIE, and an FDE of a live function. -/
def twinData : List UInt8 :=
  [4, 0, 0, 0, 0, 0, 0, 0] ++ [8, 0, 0, 0, 12, 0, 0, 0, 0, 0, 0, 0]

def twinSection (id : ℕ) : EhSection :=
  ⟨id, id, twinData, true, [⟨16, 1, 2, 0⟩],
    [⟨0, 8, none, (0, 0), none, false, 0, none⟩, ⟨8, 12, some 0, (0, 1), some 0, false, 0, none⟩], 0⟩

def twins : List EhSection := [twinSection 0, twinSection 1]

/-- Every function is live. -/
def twinRefs : Refs := ⟨fun _ _ => none, fun _ _ => some 0, fun _ => true⟩

def noPatch : EhSection → Relocation → ℕ → Option Patch := fun _ _ _ => none

theorem twins_getElem? (h : twins[i]? = some s) :
    s = twinSection i ∧ (i = 0 ∨ i = 1) := by
  match i, h with
  | 0, h => exact ⟨(Option.some.inj h).symm, .inl rfl⟩
  | 1, h => exact ⟨(Option.some.inj h).symm, .inr rfl⟩

theorem twins_split : ∀ s ∈ twins, Split .little s := by decide +kernel

theorem twins_ids : (twins.map EhSection.id).Nodup := by decide

theorem twins_finalize : (finalize .little twinRefs twins).map (fun t => (t.id, t.size)) =
    [(0, 20), (1, 12)] := by decide +kernel

theorem twins_fits : Fits .little twinRefs twins := by
  intro i s hs
  obtain ⟨rfl, rfl | rfl⟩ := twins_getElem? hs <;> decide +kernel

theorem twins_pointersKept (address : ℕ → ℕ) :
    PointersKept .little twinRefs address noPatch twins := by
  refine pointersKept_of_not_patched fun i j t q _ _ _ bytes _ k _ => ?_
  rintro ⟨index, -, -, p, hp, -⟩
  obtain ⟨rel, -, hp⟩ := Option.bind_eq_some_iff.mp hp
  exact nomatch hp

theorem twins_placement {address : ℕ → ℕ} (htop : address 0 + 20 ≤ 2 ^ 64 ∧ address 1 + 12 ≤ 2 ^ 64)
    (hapart : address 0 + 20 ≤ address 1 ∨ address 1 + 12 ≤ address 0) :
    Placement .little twinRefs address twins := by
  have hat : ∀ i t, (finalize .little twinRefs twins)[i]? = some t →
      (i = 0 ∧ t.id = 0 ∧ t.size = 20) ∨ (i = 1 ∧ t.id = 1 ∧ t.size = 12) := by
    intro i t ht
    have h := congrArg (fun l : List (ℕ × ℕ) => l[i]?) twins_finalize
    rw [List.getElem?_map, ht, Option.map_some] at h
    match i, h with
    | 0, h => exact .inl ⟨rfl, Prod.mk.inj (Option.some.inj h)⟩
    | 1, h => exact .inr ⟨rfl, Prod.mk.inj (Option.some.inj h)⟩
  refine ⟨fun t ht => ?_, fun i j t u ht hu hne => ?_⟩
  · obtain ⟨i, hi⟩ := List.getElem?_of_mem ht
    rcases hat i t hi with ⟨-, hid, hsize⟩ | ⟨-, hid, hsize⟩ <;> rw [hid, hsize]
    · exact htop.1
    · exact htop.2
  · rcases hat i t ht with ⟨hi, hid, hsize⟩ | ⟨hi, hid, hsize⟩ <;>
      rcases hat j u hu with ⟨hj, hid', hsize'⟩ | ⟨hj, hid', hsize'⟩ <;>
      rw [hid, hsize, hid', hsize'] <;> omega

end Qld.Elf.EhFrame
