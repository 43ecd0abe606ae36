import Qld.Elf.EhFrame

/-!
# What the output keeps of the unwind records

The records of the output, said from the inputs: an FDE whose function is live, a CIE that such an
FDE uses and that is the first of its contents.

* `fdeKept`, `cieUsed`, `usedCies`, `kept`, `outputOffset` — the abstract description;
* `finalize_eq` — `finalize` computes it.
-/

namespace Qld.Elf.EhFrame

open Qld.Lib

/-! ### The description -/

/-- The function of an FDE is live. -/
def fdeKept (refs : Refs) (s : EhSection) (r : Record) : Bool :=
  r.cie.isSome && r.pcBegin.any (pointsLive refs s)

/-- An FDE of the output uses the CIE. -/
def cieUsed (refs : Refs) (s : EhSection) (index : ℕ) : Bool :=
  s.records.any fun f => fdeKept refs s f && f.cie = some index

/-- The used CIEs with their contents, in input order. -/
def usedCies (e : Endian) (refs : Refs) (sections : List EhSection) :
    List ((ℕ × ℕ) × CieKey) :=
  sections.zipIdx.flatMap fun s =>
    s.1.records.zipIdx.filterMap fun r =>
      if r.1.cie.isNone && cieUsed refs s.1 r.2 then
        (cieKey e refs s.1 r.1).map fun key => ((s.2, r.2), key)
      else none

/-- The first copy of a used CIE, when it is another one. -/
def copyOf (e : Endian) (refs : Refs) (sections : List EhSection) (i : ℕ) (s : EhSection) (j : ℕ)
    (r : Record) : Option (ℕ × ℕ) :=
  if r.cie.isNone && cieUsed refs s j then
    ((cieKey e refs s r).bind (firstOf (usedCies e refs sections))).filter fun first =>
      first ≠ (i, j)
  else none

/-- Whether a record is part of the output. -/
def kept (e : Endian) (refs : Refs) (sections : List EhSection) (i : ℕ) (s : EhSection) (j : ℕ)
    (r : Record) : Bool :=
  if r.cie.isSome then fdeKept refs s r
  else cieUsed refs s j && (copyOf e refs sections i s j r).isNone

/-- The record with what is decided about it. -/
def decided (e : Endian) (refs : Refs) (sections : List EhSection) (i : ℕ) (s : EhSection) (j : ℕ)
    (r : Record) : Record :=
  { r with
    live := kept e refs sections i s j r
    canonical := copyOf e refs sections i s j r }

/-- What splitting a section gives: records that follow one another, an FDE behind its CIE, and
relocations inside their record. -/
structure WellSplit (s : EhSection) : Prop where
  small : ∀ r ∈ s.records, r.offset ≤ U32_MAX ∧ r.size ≤ U32_MAX
  tiles : ∃ stop ≤ s.data.length, Tiles 0 stop (s.records.map fun r => (r.offset, r.size))
  length : ∀ r ∈ s.records, ∀ bytes, s.bytes r = some bytes → lengthSize bytes + 4 ≤ r.size
  fde : ∀ (j : ℕ) (r : Record) (c : ℕ), s.records[j]? = some r → r.cie = some c →
    c < j ∧ ∃ d, s.records[c]? = some d ∧ d.cie = none
  cie : ∀ r ∈ s.records, r.cie = none → r.pcBegin = none
  relocs : ∀ r ∈ s.records, ∀ index, r.relocs.1 ≤ index → index < r.relocs.2 →
    ∀ rel, s.relocs[index]? = some rel → r.offset ≤ rel.offset ∧ rel.offset < r.offset + r.size
  fresh : ∀ r ∈ s.records, r.live = false ∧ r.canonical = none

/-! ### Liveness -/

variable {refs : Refs} {s : EhSection} {r : Record}

theorem markFde_eq (hcie : r.cie = none → r.pcBegin = none) :
    markFde refs s r = { r with live := fdeKept refs s r } := by
  rw [markFde, fdeKept]
  cases hpc : r.pcBegin with
  | none => rw [Option.any_none, Bool.and_false]
  | some pc =>
    cases hc : r.cie with
    | none => rw [hcie hc] at hpc; exact nomatch hpc
    | some c => simp

theorem mark_records (h : WellSplit s) :
    (mark refs s).records = s.records.mapIdx fun j r =>
      { r with live := if r.cie.isSome then fdeKept refs s r else cieUsed refs s j } := by
  have hmarked : s.records.map (markFde refs s) =
      s.records.map fun r => { r with live := fdeKept refs s r } :=
    List.map_congr_left fun r hr => markFde_eq (h.cie r hr)
  rw [mark]
  dsimp only
  rw [hmarked]
  apply List.ext_getElem?
  intro j
  rw [List.getElem?_mapIdx, List.getElem?_mapIdx, List.getElem?_map]
  cases s.records[j]? with
  | none => rfl
  | some r =>
    simp only [Option.map_some, Option.some_inj, markCie, List.any_map]
    cases hc : r.cie with
    | none => rfl
    | some c => rfl

variable {e : Endian}

/-- The contents of a record depend on its place in the section only. -/
theorem cieKey_congr {t : EhSection} {q : Record} (hdata : t.data = s.data)
    (hfile : t.file = s.file) (hrela : t.rela = s.rela) (hrelocs : t.relocs = s.relocs)
    (hoffset : q.offset = r.offset) (hsize : q.size = r.size) (hrange : q.relocs = r.relocs) :
    cieKey e refs t q = cieKey e refs s r := by
  obtain ⟨id, file, data, rela, relocs, records, size⟩ := s
  obtain ⟨id', file', data', rela', relocs', records', size'⟩ := t
  obtain ⟨offset, rsize, cie, range, pc, live, out, canonical⟩ := r
  obtain ⟨offset', rsize', cie', range', pc', live', out', canonical'⟩ := q
  subst hdata hfile hrela hrelocs hoffset hsize hrange
  rfl

theorem zipIdx_mapIdx {α β : Type*} (f : ℕ → α → β) (l : List α) :
    (l.mapIdx f).zipIdx = l.zipIdx.map fun x => (f x.2 x.1, x.2) := by
  apply List.ext_getElem?
  intro i
  rw [List.getElem?_zipIdx, List.getElem?_mapIdx, List.getElem?_map, List.getElem?_zipIdx]
  cases l[i]? with
  | none => rfl
  | some x => simp

variable {sections : List EhSection}

/-- The live CIEs of marked sections are the used ones. -/
theorem liveCies_mark (h : ∀ s ∈ sections, WellSplit s) :
    liveCies e refs (sections.map (mark refs)) = usedCies e refs sections := by
  rw [liveCies, usedCies, List.zipIdx_map, List.flatMap_map]
  refine List.flatMap_congr fun x hx => ?_
  have hs : WellSplit x.1 := h x.1 (List.fst_mem_of_mem_zipIdx hx)
  show ((mark refs x.1).records.zipIdx.filterMap fun r => _) = _
  rw [mark_records hs, zipIdx_mapIdx, List.filterMap_map]
  refine List.filterMap_congr fun y _ => ?_
  have hkey : ∀ live, cieKey e refs (mark refs x.1) { y.1 with live := live } =
      cieKey e refs x.1 y.1 := fun live => cieKey_congr rfl rfl rfl rfl rfl rfl rfl
  show (if y.1.cie.isSome || !(if y.1.cie.isSome then fdeKept refs x.1 y.1
    else cieUsed refs x.1 y.2) then none else (cieKey e refs (mark refs x.1) _).map _) = _
  rw [hkey]
  cases hc : y.1.cie with
  | none => cases cieUsed refs x.1 y.2 <;> rfl
  | some c => rfl

/-! ### Copies -/

variable {i j : ℕ} {key : CieKey}

theorem mem_usedCies :
    ((i, j), key) ∈ usedCies e refs sections ↔ ∃ s r, sections[i]? = some s ∧
      s.records[j]? = some r ∧ r.cie = none ∧ cieUsed refs s j = true ∧
      cieKey e refs s r = some key := by
  rw [usedCies, List.mem_flatMap]
  refine ⟨?_, ?_⟩
  · rintro ⟨⟨s, i'⟩, hs, hmem⟩
    obtain ⟨⟨r, j'⟩, hr, heq⟩ := List.mem_filterMap.mp hmem
    rw [Option.ite_none_right_eq_some, Bool.and_eq_true, Option.isNone_iff_eq_none] at heq
    obtain ⟨⟨hcie, hused⟩, heq⟩ := heq
    obtain ⟨k, hk, heq⟩ := Option.map_eq_some_iff.mp heq
    obtain ⟨hpos, rfl⟩ := Prod.mk.inj heq
    obtain ⟨rfl, rfl⟩ := Prod.mk.inj hpos
    exact ⟨s, r, List.mk_mem_zipIdx_iff_getElem?.mp hs, List.mk_mem_zipIdx_iff_getElem?.mp hr,
      hcie, hused, hk⟩
  · rintro ⟨s, r, hs, hr, hcie, hused, hkey⟩
    refine ⟨(s, i), List.mk_mem_zipIdx_iff_getElem?.mpr hs, List.mem_filterMap.mpr
      ⟨(r, j), List.mk_mem_zipIdx_iff_getElem?.mpr hr, ?_⟩⟩
    rw [if_pos (by rw [hcie, hused]; rfl), hkey]
    rfl

section

variable (hs : sections[i]? = some s) (hr : s.records[j]? = some r)

include hs hr

theorem usedCies_functional (key : CieKey) :
    ((i, j), key) ∈ usedCies e refs sections ↔
      r.cie = none ∧ cieUsed refs s j = true ∧ cieKey e refs s r = some key := by
  rw [mem_usedCies]
  refine ⟨?_, fun h => ⟨s, r, hs, hr, h⟩⟩
  rintro ⟨s', r', hs', hr', h⟩
  obtain rfl := Option.some.inj (hs.symm.trans hs')
  obtain rfl := Option.some.inj (hr.symm.trans hr')
  exact h

theorem lookup_copies :
    (((usedCies e refs sections).foldl copyStep ([], [])).2).lookup (i, j) =
      copyOf e refs sections i s j r := by
  have hinv := copies_spec (usedCies e refs sections)
  have hfun : ∀ a b c, (a, b) ∈ ((usedCies e refs sections).foldl copyStep ([], [])).2 →
      (a, c) ∈ ((usedCies e refs sections).foldl copyStep ([], [])).2 → b = c := by
    rintro ⟨i', j'⟩ b c hb hc
    obtain ⟨k, hk, hfirst, -⟩ := (hinv.copies _ _).mp hb
    obtain ⟨k', hk', hfirst', -⟩ := (hinv.copies _ _).mp hc
    obtain ⟨s', r', hs', hr', -, -, hkey⟩ := mem_usedCies.mp hk
    have hkey' := ((usedCies_functional hs' hr' k').mp hk').2.2
    obtain rfl := Option.some.inj (hkey.symm.trans hkey')
    exact Option.some.inj (hfirst.symm.trans hfirst')
  apply Option.ext
  intro first
  rw [lookup_eq_some_iff hfun, hinv.copies, copyOf, Option.ite_none_right_eq_some,
    Bool.and_eq_true, Option.isNone_iff_eq_none, Option.filter_eq_some_iff,
    Option.bind_eq_some_iff, decide_eq_true_eq]
  refine ⟨?_, ?_⟩
  · rintro ⟨k, hk, hfirst, hne⟩
    obtain ⟨hcie, hused, hkey⟩ := (usedCies_functional hs hr k).mp hk
    exact ⟨⟨hcie, hused⟩, ⟨k, hkey, hfirst⟩, hne⟩
  · rintro ⟨⟨hcie, hused⟩, ⟨k, hkey, hfirst⟩, hne⟩
    exact ⟨k, (usedCies_functional hs hr k).mpr ⟨hcie, hused, hkey⟩, hfirst, hne⟩

/-- A copy is not kept; its liveness and its copy are what was decided. -/
theorem dedupRecord_eq (hfresh : r.canonical = none) :
    dedupRecord ((usedCies e refs sections).foldl copyStep ([], [])).2 i j
      { r with live := if r.cie.isSome then fdeKept refs s r else cieUsed refs s j } =
      decided e refs sections i s j r := by
  rw [dedupRecord, lookup_copies hs hr, decided, kept]
  cases hcopy : copyOf e refs sections i s j r with
  | none =>
    simp only [Option.isNone_none, Bool.and_true, hfresh]
  | some first =>
    have hcie : r.cie = none := by
      rw [copyOf, Option.ite_none_right_eq_some, Bool.and_eq_true,
        Option.isNone_iff_eq_none] at hcopy
      exact hcopy.1.1
    simp only [hcie, Option.isSome_none, Bool.false_eq_true, if_false, Option.isNone_some,
      Bool.and_false]

end

/-- **`finalize` computes what the description says.** -/
theorem finalize_eq (h : ∀ s ∈ sections, WellSplit s) :
    finalize e refs sections = sections.mapIdx fun i s =>
      assign { s with records := s.records.mapIdx (decided e refs sections i s) } := by
  rw [finalize, dedup, liveCies_mark h]
  apply List.ext_getElem?
  intro i
  rw [List.getElem?_map, List.getElem?_mapIdx, List.getElem?_map, List.getElem?_mapIdx]
  cases hs : sections[i]? with
  | none => rfl
  | some s =>
    have hwell := h s (List.mem_of_getElem? hs)
    simp only [Option.map_some, Option.some_inj]
    rw [mark_records hwell]
    have hrecords : (s.records.mapIdx fun j r =>
        { r with live := if r.cie.isSome then fdeKept refs s r else cieUsed refs s j }).mapIdx
          (dedupRecord ((usedCies e refs sections).foldl copyStep ([], [])).2 i) =
        s.records.mapIdx (decided e refs sections i s) := by
      apply List.ext_getElem?
      intro j
      rw [List.getElem?_mapIdx, List.getElem?_mapIdx, List.getElem?_mapIdx]
      cases hr : s.records[j]? with
      | none => rfl
      | some r =>
        simp only [Option.map_some, Option.some_inj]
        exact dedupRecord_eq hs hr (hwell.fresh r (List.mem_of_getElem? hr)).2
    rw [hrecords]
    rfl

/-! ### Offsets -/

/-- The size of the live records. -/
def liveSize (records : List Record) : ℕ := ((records.filter Record.live).map Record.size).sum

theorem liveSize_cons (r : Record) (records : List Record) :
    liveSize (r :: records) = (if r.live then r.size else 0) + liveSize records := by
  rw [liveSize, List.filter_cons]
  split
  · rw [List.map_cons, List.sum_cons]
    rfl
  · rw [Nat.zero_add]
    rfl

theorem liveSize_append (l r : List Record) : liveSize (l ++ r) = liveSize l + liveSize r := by
  rw [liveSize, List.filter_append, List.map_append, List.sum_append]
  rfl

theorem liveSize_take_add_le {records : List Record} {k : ℕ} (hr : records[j]? = some r)
    (hlive : r.live = true) (hjk : j < k) :
    liveSize (records.take j) + r.size ≤ liveSize (records.take k) := by
  have hk : k = j + 1 + (k - (j + 1)) := by omega
  have hone : liveSize [r] = r.size := by
    rw [liveSize_cons, if_pos hlive]
    rfl
  rw [hk, List.take_add, List.take_add_one, hr, liveSize_append, liveSize_append,
    Option.toList_some, hone]
  omega

theorem assignFrom_spec (records : List Record) :
    ∀ offset, offset + liveSize records ≤ U32_MAX →
      (assignFrom offset records).2 = offset + liveSize records ∧
      ∀ j : ℕ, (assignFrom offset records).1[j]? = records[j]?.map fun r : Record =>
        if r.live then { r with outOffset := offset + liveSize (records.take j) } else r := by
  induction records with
  | nil => exact fun offset _ => ⟨rfl, fun j => by rw [assignFrom]; rfl⟩
  | cons r records ih =>
    intro offset hmax
    rw [liveSize_cons] at hmax ⊢
    rw [assignFrom]
    split
    · next hlive =>
      rw [if_pos hlive] at hmax
      have hadd : saturatingAdd32 offset r.size = offset + r.size := by
        rw [saturatingAdd32]
        omega
      dsimp only
      rw [hadd]
      obtain ⟨hsize, hrecords⟩ := ih (offset + r.size) (by omega)
      refine ⟨by omega, fun j => ?_⟩
      cases j with
      | zero =>
        simp only [List.getElem?_cons_zero, Option.map_some, hlive, if_true, List.take_zero]
        rfl
      | succ j =>
        simp only [List.getElem?_cons_succ, List.take_succ_cons, liveSize_cons, hlive, if_true]
        rw [hrecords]
        simp only [Nat.add_assoc]
    · next hlive =>
      rw [if_neg hlive] at hmax
      dsimp only
      obtain ⟨hsize, hrecords⟩ := ih offset (by omega)
      refine ⟨by omega, fun j => ?_⟩
      cases j with
      | zero =>
        simp only [List.getElem?_cons_zero, Option.map_some, hlive]
        rfl
      | succ j =>
        simp only [List.getElem?_cons_succ, List.take_succ_cons, liveSize_cons, hlive]
        rw [hrecords]
        simp

theorem assignFrom_tiles (records : List Record) :
    ∀ offset, offset + liveSize records ≤ U32_MAX →
      Tiles offset (offset + liveSize records)
        (((assignFrom offset records).1.filter Record.live).map fun r => (r.outOffset, r.size)) := by
  induction records with
  | nil => exact fun offset _ => rfl
  | cons r records ih =>
    intro offset hmax
    rw [liveSize_cons] at hmax ⊢
    rw [assignFrom]
    by_cases hlive : r.live = true
    · rw [if_pos hlive] at hmax
      have hadd : saturatingAdd32 offset r.size = offset + r.size := by
        rw [saturatingAdd32]
        omega
      have hrest := ih (offset + r.size) (by omega)
      rw [if_pos hlive, if_pos hlive, hadd, ← Nat.add_assoc]
      show Tiles offset _ (((({ r with outOffset := offset } : Record) ::
        (assignFrom (offset + r.size) records).1).filter Record.live).map _)
      rw [List.filter_cons, if_pos hlive]
      exact ⟨rfl, hrest⟩
    · rw [if_neg hlive] at hmax
      rw [if_neg hlive, if_neg hlive, List.filter_cons_of_neg hlive, Nat.zero_add]
      exact ih offset (by omega)

/-- The records of a section with what is decided about them. -/
def decidedRecords (e : Endian) (refs : Refs) (sections : List EhSection) (i : ℕ) (s : EhSection) :
    List Record :=
  s.records.mapIdx (decided e refs sections i s)

/-- Where a record stands in the contribution of its section. -/
def outputOffset (e : Endian) (refs : Refs) (sections : List EhSection) (i : ℕ) (s : EhSection)
    (j : ℕ) : ℕ :=
  liveSize ((decidedRecords e refs sections i s).take j)

/-- A record after `finalize`. -/
def finalRecord (e : Endian) (refs : Refs) (sections : List EhSection) (i : ℕ) (s : EhSection)
    (j : ℕ) (r : Record) : Record :=
  if kept e refs sections i s j r then
    { decided e refs sections i s j r with outOffset := outputOffset e refs sections i s j }
  else decided e refs sections i s j r

theorem tiles_sum (l : List (ℕ × ℕ)) :
    ∀ start stop, Tiles start stop l → start + (l.map Prod.snd).sum = stop := by
  induction l with
  | nil => exact fun start stop h => h
  | cons x l ih =>
    rintro start stop ⟨-, hrest⟩
    rw [List.map_cons, List.sum_cons, ← Nat.add_assoc]
    exact ih _ _ hrest

theorem assignFrom_le (records : List Record) :
    ∀ offset ≤ U32_MAX, (assignFrom offset records).2 ≤ U32_MAX := by
  induction records with
  | nil => exact fun offset h => h
  | cons r records ih =>
    intro offset h
    rw [assignFrom]
    split
    · exact ih _ (Nat.min_le_right _ _)
    · exact ih _ h

theorem assignFrom_sizes (records : List Record) :
    ∀ offset, ((((assignFrom offset records).1.filter Record.live).map fun r =>
      (r.outOffset, r.size)).map Prod.snd).sum = liveSize records := by
  induction records with
  | nil => exact fun _ => rfl
  | cons r records ih =>
    intro offset
    rw [assignFrom, liveSize_cons]
    split
    · next hlive =>
      rw [← ih (saturatingAdd32 offset r.size)]
      show (((List.filter _ (({ r with outOffset := offset } : Record) :: _)).map _).map _).sum = _
      rw [List.filter_cons, if_pos hlive]
      rfl
    · next hlive =>
      rw [List.filter_cons_of_neg hlive, Nat.zero_add]
      exact ih offset

/-- The records of the output from each section are less than 4 GiB together. -/
def Fits (e : Endian) (refs : Refs) (sections : List EhSection) : Prop :=
  ∀ i s, sections[i]? = some s → liveSize (decidedRecords e refs sections i s) ≤ U32_MAX

/-- Records that follow one another to the size of their contribution fit. -/
theorem fits_of_tiles (h : ∀ s ∈ sections, WellSplit s)
    (htiles : ∀ t ∈ finalize e refs sections,
      Tiles 0 t.size ((t.records.filter Record.live).map fun r => (r.outOffset, r.size))) :
    Fits e refs sections := by
  intro i s hs
  have ht : (finalize e refs sections)[i]? =
      some (assign { s with records := decidedRecords e refs sections i s }) := by
    rw [finalize_eq h, List.getElem?_mapIdx, hs]
    rfl
  have hsum := tiles_sum _ _ _ (htiles _ (List.mem_of_getElem? ht))
  rw [Nat.zero_add] at hsum
  exact (assignFrom_sizes _ 0).symm.trans_le (hsum.trans_le (assignFrom_le _ 0 (Nat.zero_le _)))

/-- What `finalize` makes of a section. -/
structure Finalized (e : Endian) (refs : Refs) (sections : List EhSection) (i : ℕ) (s t : EhSection) :
    Prop where
  id : t.id = s.id
  file : t.file = s.file
  data : t.data = s.data
  rela : t.rela = s.rela
  relocs : t.relocs = s.relocs
  size : t.size = liveSize (decidedRecords e refs sections i s)
  tiles : Tiles 0 t.size ((t.records.filter Record.live).map fun r => (r.outOffset, r.size))
  records : ∀ j, t.records[j]? = s.records[j]?.map (finalRecord e refs sections i s j)

/-- **`finalize`, section by section.** -/
theorem finalize_getElem? (h : ∀ s ∈ sections, WellSplit s) (hfits : Fits e refs sections)
    (hs : sections[i]? = some s) :
    ∃ t, (finalize e refs sections)[i]? = some t ∧ Finalized e refs sections i s t := by
  have hmax : 0 + liveSize (decidedRecords e refs sections i s) ≤ U32_MAX := by
    rw [Nat.zero_add]
    exact hfits i s hs
  have hassign := assignFrom_spec (decidedRecords e refs sections i s) 0 hmax
  refine ⟨assign { s with records := decidedRecords e refs sections i s },
    by rw [finalize_eq h, List.getElem?_mapIdx, hs]; rfl, rfl, rfl, rfl, rfl, rfl, ?_, ?_, ?_⟩
  · exact hassign.1.trans (Nat.zero_add _)
  · show Tiles 0 (assignFrom 0 (decidedRecords e refs sections i s)).2 _
    rw [hassign.1]
    exact assignFrom_tiles _ 0 hmax
  · intro j
    refine (hassign.2 j).trans ?_
    rw [decidedRecords, List.getElem?_mapIdx, Option.map_map]
    cases s.records[j]? with
    | none => rfl
    | some r =>
      simp only [Option.map_some, Option.some_inj, Function.comp_apply, Nat.zero_add]
      rfl

section Final

variable (e : Endian) (refs : Refs) (sections : List EhSection) (i : ℕ) (s : EhSection) (j : ℕ)
  (r : Record)

@[simp] theorem finalRecord_live :
    (finalRecord e refs sections i s j r).live = kept e refs sections i s j r := by
  rw [finalRecord]
  split <;> rfl

@[simp] theorem finalRecord_cie : (finalRecord e refs sections i s j r).cie = r.cie := by
  rw [finalRecord]
  split <;> rfl

@[simp] theorem finalRecord_offset : (finalRecord e refs sections i s j r).offset = r.offset := by
  rw [finalRecord]
  split <;> rfl

@[simp] theorem finalRecord_size : (finalRecord e refs sections i s j r).size = r.size := by
  rw [finalRecord]
  split <;> rfl

@[simp] theorem finalRecord_relocs : (finalRecord e refs sections i s j r).relocs = r.relocs := by
  rw [finalRecord]
  split <;> rfl

@[simp] theorem finalRecord_canonical :
    (finalRecord e refs sections i s j r).canonical = copyOf e refs sections i s j r := by
  rw [finalRecord]
  split <;> rfl

theorem finalRecord_outOffset (h : kept e refs sections i s j r = true) :
    (finalRecord e refs sections i s j r).outOffset = outputOffset e refs sections i s j := by
  rw [finalRecord, if_pos h]

end Final

/-- A kept record ends before the next one, and before the end of the contribution. -/
theorem outputOffset_add_le {k : ℕ} (hr : s.records[j]? = some r)
    (hkept : kept e refs sections i s j r = true) (hjk : j < k) :
    outputOffset e refs sections i s j + r.size ≤ outputOffset e refs sections i s k := by
  have hdecided : (decidedRecords e refs sections i s)[j]? =
      some (decided e refs sections i s j r) := by
    rw [decidedRecords, List.getElem?_mapIdx, hr]
    rfl
  have hle := liveSize_take_add_le hdecided hkept hjk
  exact hle

theorem outputOffset_add_le_size (hr : s.records[j]? = some r)
    (hkept : kept e refs sections i s j r = true) :
    outputOffset e refs sections i s j + r.size ≤
      liveSize (decidedRecords e refs sections i s) := by
  have hlen : (decidedRecords e refs sections i s).length = s.records.length := by
    rw [decidedRecords, List.length_mapIdx]
  have hj : j < s.records.length := (List.getElem?_eq_some_iff.mp hr).1
  have hle := outputOffset_add_le hr hkept hj
  rw [outputOffset, outputOffset, ← hlen, List.take_length] at hle
  exact hle

/-! ### The kept CIE -/

theorem kept_firstOf (hfirst : firstOf (usedCies e refs sections) key = some (i, j)) :
    ∃ s r, sections[i]? = some s ∧ s.records[j]? = some r ∧ r.cie = none ∧
      cieKey e refs s r = some key ∧ copyOf e refs sections i s j r = none ∧
      kept e refs sections i s j r = true := by
  obtain ⟨s, r, hs, hr, hcie, hused, hkey⟩ := mem_usedCies.mp (firstOf_mem hfirst)
  have hcopy : copyOf e refs sections i s j r = none := by
    rw [copyOf, hcie, hused, hkey]
    simp [hfirst]
  refine ⟨s, r, hs, hr, hcie, hkey, hcopy, ?_⟩
  rw [kept, hcie, hcopy, hused]
  rfl

theorem firstOf_kept (hs : sections[i]? = some s) (hr : s.records[j]? = some r)
    (hcie : r.cie = none) (hkey : cieKey e refs s r = some key)
    (hkept : kept e refs sections i s j r = true) :
    firstOf (usedCies e refs sections) key = some (i, j) := by
  rw [kept, hcie, Option.isSome_none, if_neg Bool.false_ne_true, Bool.and_eq_true] at hkept
  obtain ⟨hused, hcopy⟩ := hkept
  obtain ⟨first, hfirst⟩ := firstOf_isSome
    ((usedCies_functional hs hr key).mpr ⟨hcie, hused, hkey⟩)
  rw [copyOf, hcie, hused, hkey, Option.isNone_none, Bool.and_self, if_pos rfl, Option.bind_some,
    hfirst] at hcopy
  by_cases heq : first = (i, j)
  · rw [← heq]
    exact hfirst
  · rw [Option.filter_some_pos (by simpa using heq)] at hcopy
    exact nomatch hcopy

/-- A CIE that a kept FDE uses is kept, or is a copy of one that is. -/
theorem copyOf_getD (hs : sections[i]? = some s) (hr : s.records[j]? = some r) (hcie : r.cie = none)
    (hused : cieUsed refs s j = true) (hkey : cieKey e refs s r = some key) :
    firstOf (usedCies e refs sections) key = some ((copyOf e refs sections i s j r).getD (i, j)) := by
  obtain ⟨first, hfirst⟩ := firstOf_isSome
    ((usedCies_functional hs hr key).mpr ⟨hcie, hused, hkey⟩)
  rw [copyOf, hcie, hused, hkey, Option.isNone_none, Bool.and_self, if_pos rfl, Option.bind_some,
    hfirst]
  by_cases heq : first = (i, j)
  · rw [Option.filter_some_neg (by simpa using heq), Option.getD_none, heq]
  · rw [Option.filter_some_pos (by simpa using heq), Option.getD_some]

end Qld.Elf.EhFrame
