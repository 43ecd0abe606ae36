import Qld.Elf.Dynsym.StrTabRuns
import Qld.Elf.Dynsym.Versions
import Qld.Lib.LinkedRecords

/-!
# The records of the version tables

* `readVerneed`, `readVerdef` — the records of the format, with the strings they name;
* `Sound` — a string table all of whose strings can be named by an offset of 32 bits;
* `addEach_sound` — strings that are added keep their offsets;
* `putVerneed_linked`, `putVerdef_linked` — the records are linked, and read back.
-/

namespace Qld.Elf.Dynsym

open Qld.Lib

/-! ### Reading records -/

/-- A version that is needed of a library. -/
structure Vernaux where
  hash : ℕ
  flags : ℕ
  other : ℕ
  name : List UInt8

/-- A library of which versions are needed. -/
structure Verneed where
  version : ℕ
  count : ℕ
  file : List UInt8
  aux : List Vernaux

/-- A version that is defined, with its name and those of its parents. -/
structure Verdef where
  version : ℕ
  flags : ℕ
  index : ℕ
  count : ℕ
  hash : ℕ
  names : List (List UInt8)

section

variable (kind : ElfKind) (data dynstr : List UInt8)

/-- The record at a position, and its `vna_next`. -/
def readVernaux (pos : ℕ) : Option (Vernaux × ℕ) := do
  let hash ← kind.read 4 data pos
  let flags ← kind.read 2 data (pos + 4)
  let other ← kind.read 2 data (pos + 6)
  let name ← kind.read 4 data (pos + 8)
  let next ← kind.read 4 data (pos + 12)
  some ({ hash, flags, other, name := stringAt dynstr name }, next)

/-- The record at a position with those it leads to, and its `vn_next`. -/
def readVerneed (pos : ℕ) : Option (Verneed × ℕ) := do
  let version ← kind.read 2 data pos
  let count ← kind.read 2 data (pos + 2)
  let file ← kind.read 4 data (pos + 4)
  let first ← kind.read 4 data (pos + 8)
  let next ← kind.read 4 data (pos + 12)
  let aux ← walkLinks (readVernaux kind data dynstr) data.length (pos + first)
  some ({ version, count, file := stringAt dynstr file, aux }, next)

/-- The name at a position, and its `vda_next`. -/
def readVerdaux (pos : ℕ) : Option (List UInt8 × ℕ) := do
  let name ← kind.read 4 data pos
  let next ← kind.read 4 data (pos + 4)
  some (stringAt dynstr name, next)

/-- The record at a position with its names, and its `vd_next`. -/
def readVerdef (pos : ℕ) : Option (Verdef × ℕ) := do
  let version ← kind.read 2 data pos
  let flags ← kind.read 2 data (pos + 2)
  let index ← kind.read 2 data (pos + 4)
  let count ← kind.read 2 data (pos + 6)
  let hash ← kind.read 4 data (pos + 8)
  let first ← kind.read 4 data (pos + 12)
  let next ← kind.read 4 data (pos + 16)
  let names ← walkLinks (readVerdaux kind data dynstr) data.length (pos + first)
  some ({ version, flags, index, count, hash, names }, next)

end

/-! ### Strings -/

/-- A string table all of whose strings can be named by an offset. -/
structure Sound (hash : List UInt8 → ℕ) (t : StrTab) (strings : List (List UInt8)) : Prop where
  represents : Represents hash t strings
  fits : ∀ s ∈ strings, offsetOf strings s ≤ U32_MAX

/-- An offset names a text. -/
def Names (strings : List (List UInt8)) (text : List UInt8) (offset : ℕ) : Prop :=
  (text = [] ∨ text ∈ strings) ∧ offset = offsetOf strings text ∧ offset ≤ U32_MAX

variable {strings : List (List UInt8)} {text : List UInt8} {offset : ℕ}

theorem Names.append (h : Names strings text offset) (more : List (List UInt8)) :
    Names (strings ++ more) text offset := by
  obtain ⟨hmem, hoffset, hle⟩ := h
  refine ⟨hmem.imp_right (List.mem_append_left _), ?_, hle⟩
  rw [offsetOf_append hmem, hoffset]

theorem Names.stringAt_eq {hash : List UInt8 → ℕ} {t : StrTab} (h : Names strings text offset)
    (ht : Sound hash t strings) :
    stringAt t.data offset = text := by
  rw [h.2.1, stringAt_offsetOf ht.represents h.1]

section

variable {hash : List UInt8 → ℕ} {t t' : StrTab} {strings : List (List UInt8)}

theorem addSpec_fits {held : List (List UInt8)} {text : List UInt8} {offset : ℕ}
    (hfits : ∀ s ∈ strings, offsetOf strings s ≤ U32_MAX)
    (h : addSpec strings text = .ok (offset, held)) :
    ∀ s ∈ held, offsetOf held s ≤ U32_MAX := by
  rw [addSpec_eq] at h
  split at h
  · obtain ⟨rfl, rfl⟩ := Prod.mk.inj (Except.ok.inj h)
    exact hfits
  · next hnew =>
    have hnew := not_or.mp hnew
    split at h
    · next hlen =>
      obtain ⟨rfl, rfl⟩ := Prod.mk.inj (Except.ok.inj h)
      intro s hs
      by_cases hold : s ∈ strings
      · rw [offsetOf_append (.inr hold)]
        exact hfits s hold
      · have htext : s = text := by
          simpa using (List.mem_append.mp hs).resolve_left hold
        subst htext
        rw [offsetOf, if_neg hnew.1, List.idxOf_append_of_notMem hnew.2, List.idxOf_cons_self,
          Nat.add_zero, List.take_left]
        exact hlen
    · cases h

variable {texts : List (List UInt8)}

theorem addEachSpec_fits : ∀ {strings held : List (List UInt8)}
    {offsets : List ℕ}, (∀ s ∈ strings, offsetOf strings s ≤ U32_MAX) →
    addEachSpec strings texts = .ok (offsets, held) → ∀ s ∈ held, offsetOf held s ≤ U32_MAX := by
  induction texts with
  | nil =>
    intro strings held offsets hfits h
    obtain ⟨_, rfl⟩ := Prod.mk.inj (Except.ok.inj h)
    exact hfits
  | cons text texts ih =>
    intro strings held offsets hfits h
    rw [addEachSpec] at h
    obtain ⟨⟨offset, held'⟩, hadd, h⟩ := bind_eq_ok.mp h
    obtain ⟨⟨offsets', held''⟩, heach, h⟩ := bind_eq_ok.mp h
    obtain ⟨_, rfl⟩ := Prod.mk.inj (Except.ok.inj h)
    exact ih (addSpec_fits hfits hadd) heach

theorem sound_new : Sound hash StrTab.new [] :=
  ⟨represents_new, fun _ hs => absurd hs List.not_mem_nil⟩

/-- A result of a table that does what is done to its strings. -/
theorem Simulates.ok_inv {α : Type} {a : α} {t : StrTab}
    {spec : Except Error (α × List (List UInt8))} (h : Simulates hash (.ok (a, t)) spec) :
    ∃ held, spec = .ok (a, held) ∧ Represents hash t held := by
  cases h with
  | ok a h => exact ⟨_, rfl, h⟩

/-- **Strings that are added.** -/
theorem addEach_sound (h : Sound hash t strings) (hnul : ∀ text ∈ texts, 0 ∉ text)
    {offsets : List ℕ} (hadd : t.addEach hash texts = .ok (offsets, t')) :
    ∃ more, Sound hash t' (strings ++ more) ∧
      List.Forall₂ (Names (strings ++ more)) texts offsets := by
  have hsim := addEach_spec h.represents hnul
  rw [hadd] at hsim
  obtain ⟨held, hspec, hrep⟩ := hsim.ok_inv
  have hfits := addEachSpec_fits h.fits hspec
  obtain ⟨⟨more, rfl⟩, hoffsets⟩ := addEachSpec_offsets hspec
  refine ⟨more, ⟨hrep, hfits⟩, hoffsets.imp fun {text offset} hname => ⟨hname.1, hname.2, ?_⟩⟩
  rw [hname.2]
  rcases hname.1 with hnil | hmem
  · rw [offsetOf, if_pos hnil]
    exact Nat.zero_le _
  · exact hfits text hmem

theorem addAll_sound (h : Sound hash t strings) {chunk : ℕ} (hchunk : 0 < chunk)
    (hnul : ∀ text ∈ texts, 0 ∉ text) (hlen : texts.length ≤ U32_MAX) {offsets : List ℕ}
    (hadd : t.addAll hash chunk texts = .ok (offsets, t')) :
    ∃ more, Sound hash t' (strings ++ more) := by
  have hsim := addAll_spec h.represents hchunk hnul hlen
  rw [hadd] at hsim
  obtain ⟨held, hspec, hrep⟩ := hsim.ok_inv
  unfold addAllSpec at hspec
  split at hspec
  · cases hspec
  · next heach =>
    split at hspec
    · obtain ⟨rfl, rfl⟩ := Prod.mk.inj (Except.ok.inj hspec)
      have hfits := addEachSpec_fits h.fits heach
      obtain ⟨⟨more, rfl⟩, _⟩ := addEachSpec_offsets heach
      exact ⟨more, hrep, hfits⟩
    · cases hspec

end

/-! ### Needed versions -/

theorem sysvHash_lt (name : List UInt8) : sysvHash name < 2 ^ 32 := by
  unfold sysvHash
  rcases List.eq_nil_or_concat name with rfl | ⟨init, last, rfl⟩
  · decide
  · rw [List.concat_eq_append, List.foldl_append]
    refine Nat.lt_of_le_of_lt Nat.and_le_right ?_
    exact Nat.lt_of_le_of_lt (Nat.sub_le _ _) (by decide)

/-- The record of a version. -/
def vernauxOf (index : List UInt8 → ℕ) (name : List UInt8) : Vernaux :=
  { hash := sysvHash name
    flags := 0
    other := index name
    name }

section

variable {kind : ElfKind} {dynstr : List UInt8} {index : List UInt8 → ℕ}

theorem length_vernaux (items : List (List UInt8 × ℕ)) :
    (vernaux kind index items).length = 16 * items.length := by
  induction items with
  | nil => rfl
  | cons x rest ih =>
    rw [vernaux, List.length_append, ih, List.length_cons, Nat.mul_succ, Nat.add_comm]
    simp [ElfKind.e32, ElfKind.e16]

/-- **The records of a library's versions.** -/
theorem linked_vernaux (hindex : ∀ name, index name < 2 ^ 16) {items : List (List UInt8 × ℕ)}
    (hitems : ∀ x ∈ items, x.2 ≤ U32_MAX ∧ stringAt dynstr x.2 = x.1) (after : List UInt8) :
    ∀ before : List UInt8,
      Linked (readVernaux kind (before ++ (vernaux kind index items ++ after)) dynstr)
        before.length (items.map fun x => (vernauxOf index x.1, 16)) := by
  induction items with
  | nil => exact fun _ => trivial
  | cons x rest ih =>
    intro before
    obtain ⟨⟨hoffset, hname⟩, hrest⟩ := List.forall_mem_cons.mp hitems
    have hnext : (if rest = [] then 0 else 16) < 256 ^ 4 := by split <;> decide
    have hoffset : x.2 < 256 ^ 4 := Nat.lt_of_le_of_lt hoffset (by decide)
    have hbytes : vernaux kind index (x :: rest) ++ after =
        kind.record [(4, sysvHash x.1), (2, 0), (2, index x.1), (4, x.2),
          (4, if rest = [] then 0 else 16)] ++ (vernaux kind index rest ++ after) := by
      simp [vernaux, ElfKind.record, ElfKind.e32, ElfKind.e16]
    rw [hbytes]
    have hread : ∀ (k : ℕ) {width value : ℕ}, _ → _ → kind.read width _ _ = some value :=
      fun k _ _ hk h => ElfKind.read_record before [(4, sysvHash x.1), (2, 0), (2, index x.1),
        (4, x.2), (4, if rest = [] then 0 else 16)] (vernaux kind index rest ++ after) k hk h
    refine ⟨?_, Nat.succ_pos 15, ?_⟩
    · generalize before ++ (_ ++ _) = data at hread ⊢
      have h0 : kind.read 4 data before.length = _ := hread 0 rfl (sysvHash_lt x.1)
      have h1 : kind.read 2 data (before.length + 4) = _ := hread 1 rfl (by decide)
      have h2 : kind.read 2 data (before.length + 6) = _ := hread 2 rfl (hindex x.1)
      have h3 : kind.read 4 data (before.length + 8) = _ := hread 3 rfl hoffset
      have h4 : kind.read 4 data (before.length + 12) = _ := hread 4 rfl hnext
      rw [readVernaux, h0, h1, h2, h3, h4]
      simp only [Option.bind_eq_bind, Option.bind_some, hname, List.map_eq_nil_iff]
      rfl
    · have := ih hrest (before ++ kind.record [(4, sysvHash x.1), (2, 0), (2, index x.1), (4, x.2),
          (4, if rest = [] then 0 else 16)])
      rw [List.length_append, ElfKind.length_record, List.append_assoc] at this
      exact this

/-- The library's record, with those of its versions. -/
def verneedOf (index : List UInt8 → ℕ) (file : List UInt8) (versions : List (List UInt8)) :
    Verneed :=
  { version := 1
    count := versions.length
    file
    aux := versions.map (vernauxOf index) }

/-- **A library's record.** -/
theorem readVerneed_record (hindex : ∀ name, index name < 2 ^ 16) {file : List UInt8} {offset : ℕ}
    (hoffset : offset ≤ U32_MAX) (hfile : stringAt dynstr offset = file)
    {items : List (List UInt8 × ℕ)} (hne : items ≠ []) (hcount : items.length ≤ U16_MAX)
    (hitems : ∀ x ∈ items, x.2 ≤ U32_MAX ∧ stringAt dynstr x.2 = x.1) {next : ℕ}
    (hnext : next < 2 ^ 32) (before after : List UInt8) :
    readVerneed kind (before ++ (kind.record [(2, 1), (2, items.length), (4, offset), (4, 16),
        (4, next)] ++ (vernaux kind index items ++ after))) dynstr before.length =
      some (verneedOf index file (items.map (·.1)), next) := by
  have hread : ∀ (k : ℕ) {width value : ℕ}, _ → _ → kind.read width _ _ = some value :=
    fun k _ _ hk h => ElfKind.read_record before [(2, 1), (2, items.length), (4, offset), (4, 16),
      (4, next)] (vernaux kind index items ++ after) k hk h
  have haux := @linked_vernaux kind dynstr index hindex items hitems after (before ++
    kind.record [(2, 1), (2, items.length), (4, offset), (4, 16), (4, next)])
  rw [List.length_append, ElfKind.length_record, List.append_assoc] at haux
  have hlength : items.length ≤ (before ++ (kind.record [(2, 1), (2, items.length), (4, offset),
      (4, 16), (4, next)] ++ (vernaux kind index items ++ after))).length := by
    simp only [List.length_append, length_vernaux]
    omega
  generalize before ++ (_ ++ _) = data at hread haux hlength ⊢
  have h0 : kind.read 2 data before.length = _ := hread 0 rfl (by decide)
  have h1 : kind.read 2 data (before.length + 2) = _ :=
    hread 1 rfl (Nat.lt_of_le_of_lt hcount (by decide))
  have h2 : kind.read 4 data (before.length + 4) = _ :=
    hread 2 rfl (Nat.lt_of_le_of_lt hoffset (by decide))
  have h3 : kind.read 4 data (before.length + 8) = _ := hread 3 rfl (by decide)
  have h4 : kind.read 4 data (before.length + 12) = _ := hread 4 rfl hnext
  have hwalk : walkLinks (readVernaux kind data dynstr) data.length (before.length + 16) = _ :=
    walkLinks_of_linked haux (by simpa using hne) (by simpa using hlength)
  rw [readVerneed, h0, h1, h2, h3, h4]
  simp only [Option.bind_eq_bind, Option.bind_some, hwalk, hfile, List.map_map]
  rw [verneedOf, List.length_map, List.map_map]
  rfl

end

/-! ### Defined versions -/

section

variable {kind : ElfKind} {dynstr : List UInt8}

theorem length_verdaux (offsets : List ℕ) : (verdaux kind offsets).length = 8 * offsets.length := by
  induction offsets with
  | nil => rfl
  | cons offset rest ih =>
    rw [verdaux, List.length_append, ih, List.length_cons, Nat.mul_succ, Nat.add_comm]
    simp [ElfKind.e32]

/-- **The records of a definition's names.** -/
theorem linked_verdaux {offsets : List ℕ} (hoffsets : ∀ x ∈ offsets, x ≤ U32_MAX)
    (after : List UInt8) : ∀ before : List UInt8,
      Linked (readVerdaux kind (before ++ (verdaux kind offsets ++ after)) dynstr)
        before.length (offsets.map fun x => (stringAt dynstr x, 8)) := by
  induction offsets with
  | nil => exact fun _ => trivial
  | cons x rest ih =>
    intro before
    obtain ⟨hoffset, hrest⟩ := List.forall_mem_cons.mp hoffsets
    have hnext : (if rest = [] then 0 else 8) < 256 ^ 4 := by split <;> decide
    have hbytes : verdaux kind (x :: rest) ++ after =
        kind.record [(4, x), (4, if rest = [] then 0 else 8)] ++ (verdaux kind rest ++ after) := by
      simp [verdaux, ElfKind.record, ElfKind.e32]
    rw [hbytes]
    have hread : ∀ (k : ℕ) {width value : ℕ}, _ → _ → kind.read width _ _ = some value :=
      fun k _ _ hk h => ElfKind.read_record before [(4, x), (4, if rest = [] then 0 else 8)]
        (verdaux kind rest ++ after) k hk h
    refine ⟨?_, Nat.succ_pos 7, ?_⟩
    · generalize before ++ (_ ++ _) = data at hread ⊢
      have h0 : kind.read 4 data before.length = _ :=
        hread 0 rfl (Nat.lt_of_le_of_lt hoffset (by decide))
      have h1 : kind.read 4 data (before.length + 4) = _ := hread 1 rfl hnext
      rw [readVerdaux, h0, h1]
      simp only [Option.bind_eq_bind, Option.bind_some, List.map_eq_nil_iff]
    · have := ih hrest (before ++ kind.record [(4, x), (4, if rest = [] then 0 else 8)])
      rw [List.length_append, ElfKind.length_record, List.append_assoc] at this
      exact this

/-- The record of a definition. -/
def verdefOf (entry : VerDefEntry) : Verdef :=
  { version := 1
    flags := entry.flags
    index := entry.index
    count := entry.parents.length + 1
    hash := sysvHash entry.name
    names := entry.name :: entry.parents }

theorem named_offsets {names : List (List UInt8)} {offsets : List ℕ}
    (h : List.Forall₂ (fun name offset => offset ≤ U32_MAX ∧ stringAt dynstr offset = name)
      names offsets) :
    (∀ x ∈ offsets, x ≤ U32_MAX) ∧ offsets.map (stringAt dynstr) = names := by
  induction h with
  | nil => exact ⟨fun _ hx => absurd hx List.not_mem_nil, rfl⟩
  | cons hname _ ih =>
    refine ⟨List.forall_mem_cons.mpr ⟨hname.1, ih.1⟩, ?_⟩
    rw [List.map_cons, hname.2, ih.2]

/-- **A definition's record.** -/
theorem readVerdef_record {entry : VerDefEntry} (hflags : entry.flags < 2 ^ 16)
    (hindex : entry.index < 2 ^ 16) (hcount : entry.parents.length + 1 ≤ U16_MAX)
    {offsets : List ℕ}
    (hnames : List.Forall₂ (fun name offset => offset ≤ U32_MAX ∧ stringAt dynstr offset = name)
      (entry.name :: entry.parents) offsets) {next : ℕ} (hnext : next < 2 ^ 32)
    (before after : List UInt8) :
    readVerdef kind (before ++ (kind.record [(2, 1), (2, entry.flags), (2, entry.index),
        (2, entry.parents.length + 1), (4, sysvHash entry.name), (4, 20), (4, next)] ++
        (verdaux kind offsets ++ after))) dynstr before.length =
      some (verdefOf entry, next) := by
  have hread : ∀ (k : ℕ) {width value : ℕ}, _ → _ → kind.read width _ _ = some value :=
    fun k _ _ hk h => ElfKind.read_record before [(2, 1), (2, entry.flags), (2, entry.index),
      (2, entry.parents.length + 1), (4, sysvHash entry.name), (4, 20), (4, next)]
      (verdaux kind offsets ++ after) k hk h
  have hlen := hnames.length_eq
  obtain ⟨hoffsets, hstrings⟩ := named_offsets hnames
  have haux := @linked_verdaux kind dynstr offsets hoffsets after
    (before ++ kind.record [(2, 1), (2, entry.flags), (2, entry.index),
      (2, entry.parents.length + 1), (4, sysvHash entry.name), (4, 20), (4, next)])
  rw [List.length_append, ElfKind.length_record, List.append_assoc] at haux
  have hlength : offsets.length ≤ (before ++ (kind.record [(2, 1), (2, entry.flags),
      (2, entry.index), (2, entry.parents.length + 1), (4, sysvHash entry.name), (4, 20),
      (4, next)] ++ (verdaux kind offsets ++ after))).length := by
    simp only [List.length_append, length_verdaux]
    omega
  generalize before ++ (_ ++ _) = data at hread haux hlength ⊢
  have h0 : kind.read 2 data before.length = _ := hread 0 rfl (by decide)
  have h1 : kind.read 2 data (before.length + 2) = _ := hread 1 rfl hflags
  have h2 : kind.read 2 data (before.length + 4) = _ := hread 2 rfl hindex
  have h3 : kind.read 2 data (before.length + 6) = _ :=
    hread 3 rfl (Nat.lt_of_le_of_lt hcount (by decide))
  have h4 : kind.read 4 data (before.length + 8) = _ := hread 4 rfl (sysvHash_lt entry.name)
  have h5 : kind.read 4 data (before.length + 12) = _ := hread 5 rfl (by decide)
  have h6 : kind.read 4 data (before.length + 16) = _ := hread 6 rfl hnext
  have hwalk : walkLinks (readVerdaux kind data dynstr) data.length (before.length + 20) = _ :=
    walkLinks_of_linked haux (by
      rw [ne_eq, List.map_eq_nil_iff]
      rintro rfl
      cases hlen) (by simpa using hlength)
  rw [readVerdef, h0, h1, h2, h3, h4, h5, h6]
  simp only [Option.bind_eq_bind, Option.bind_some, hwalk, List.map_map]
  rw [verdefOf, ← hstrings]
  rfl

end

/-! ### Whole tables -/

section

variable {hash : List UInt8 → ℕ} {t t' : StrTab} {strings : List (List UInt8)}

theorem needIndex_lt (needs : List Need) (first : ℕ) (need : Need) :
    needIndex needs first need < 2 ^ 16 := by
  unfold needIndex
  split
  · split
    · next h => exact Nat.lt_of_le_of_lt h.2 (by decide)
    · decide
  · decide

theorem names_later {final : StrTab} {later : List (List UInt8)}
    (hfinal : Sound hash final (strings ++ later)) {texts : List (List UInt8)} {offsets : List ℕ}
    (h : List.Forall₂ (Names strings) texts offsets) :
    List.Forall₂ (fun text offset => offset ≤ U32_MAX ∧ stringAt final.data offset = text)
      texts offsets :=
  h.imp fun {_ _} hname => ⟨hname.2.2, (hname.append later).stringAt_eq hfinal⟩

theorem zip_names {dynstr : List UInt8} {names : List (List UInt8)} {offsets : List ℕ}
    (h : List.Forall₂ (fun name offset => offset ≤ U32_MAX ∧ stringAt dynstr offset = name)
      names offsets) :
    (names.zip offsets).map (·.1) = names ∧
      ∀ x ∈ names.zip offsets, x.2 ≤ U32_MAX ∧ stringAt dynstr x.2 = x.1 :=
  ⟨List.map_fst_zip (Nat.le_of_eq h.length_eq), fun _ hx => (List.forall₂_iff_zip.mp h).2 hx⟩

/-- **`.gnu.version_r`.**  The records of the files are linked, and read back with a string
table that has grown since. -/
theorem putVerneed_linked {input : PlanInput} {needs : List Need} {first : ℕ} {files : List ℕ}
    (hnul : ∀ file ∈ files, ∀ text ∈ input.needed_name file :: versionsOf needs file, 0 ∉ text)
    (hne : ∀ file ∈ files, versionsOf needs file ≠ []) :
    ∀ {t : StrTab} {strings : List (List UInt8)} {data : List UInt8}, Sound hash t strings →
      input.putVerneed hash needs first t files = .ok (data, t') →
      ∃ more, Sound hash t' (strings ++ more) ∧
        ∀ {final : StrTab} {later : List (List UInt8)},
          Sound hash final (strings ++ more ++ later) → ∀ before after : List UInt8,
          Linked (readVerneed input.kind (before ++ (data ++ after)) final.data) before.length
            (files.map fun file => (verneedOf (fun name => needIndex needs first ⟨file, name⟩)
              (input.needed_name file) (versionsOf needs file),
                16 + 16 * (versionsOf needs file).length)) := by
  induction files with
  | nil =>
    intro t strings data ht hput
    obtain ⟨rfl, rfl⟩ := Prod.mk.inj (Except.ok.inj hput)
    exact ⟨[], by rwa [List.append_nil], fun _ _ _ => trivial⟩
  | cons file rest ih =>
    intro t strings data ht hput
    obtain ⟨hnulFile, hnulRest⟩ := List.forall_mem_cons.mp hnul
    obtain ⟨hneFile, hneRest⟩ := List.forall_mem_cons.mp hne
    rw [PlanInput.putVerneed] at hput
    dsimp only at hput
    split at hput
    · cases hput
    next hcount =>
    obtain ⟨⟨offsets, t₁⟩, hadd, hput⟩ := bind_eq_ok.mp hput
    obtain ⟨⟨dataRest, t₂⟩, hrest, hput⟩ := bind_eq_ok.mp hput
    obtain ⟨rfl, rfl⟩ := Prod.mk.inj (Except.ok.inj hput)
    obtain ⟨more, ht₁, hnames⟩ := addEach_sound ht hnulFile hadd
    obtain ⟨more', ht₂, hlinked⟩ := ih hnulRest hneRest ht₁ hrest
    refine ⟨more ++ more', by rwa [← List.append_assoc],
      fun {final later} hfinal before after => ?_⟩
    rw [← List.append_assoc strings] at hfinal
    obtain ⟨offset, offsets, hfile, hversions, rfl⟩ := List.forall₂_cons_left_iff.mp
      (names_later (by rwa [← List.append_assoc]) hnames)
    obtain ⟨hmap, hitems⟩ := zip_names hversions
    rw [List.tail_cons]
    generalize (versionsOf needs file).zip offsets = items at hmap hitems ⊢
    have hlength : (versionsOf needs file).length = items.length := by rw [← hmap, List.length_map]
    rw [hlength] at hcount ⊢
    have hnext : (if rest = [] then 0 else items.length * 16 + 16) < 2 ^ 32 := by
      have : items.length ≤ 65535 := Nat.not_lt.mp hcount
      split <;> omega
    generalize hrecord : [(2, 1), (2, items.length), (4, offset), (4, 16),
      (4, if rest = [] then 0 else items.length * 16 + 16)] = values at hnext
    have hbytes : input.kind.e16 1 ++ input.kind.e16 items.length ++
        input.kind.e32 ((offset :: offsets).headD 0) ++ input.kind.e32 16 ++
        input.kind.e32 (if rest = [] then 0 else items.length * 16 + 16) ++
        vernaux input.kind (fun name => needIndex needs first ⟨file, name⟩) items ++ dataRest ++
        after = input.kind.record values ++
          (vernaux input.kind (fun name => needIndex needs first ⟨file, name⟩) items ++
            (dataRest ++ after)) := by
      rw [← hrecord]
      simp [ElfKind.record, ElfKind.e32, ElfKind.e16]
    rw [hbytes, ← hrecord]
    refine ⟨?_, Nat.lt_add_right _ (Nat.succ_pos 15), ?_⟩
    · rw [readVerneed_record (fun name => needIndex_lt _ _ _) hfile.1 hfile.2 (by
        rintro rfl
        exact hneFile hmap.symm) (Nat.not_lt.mp hcount) hitems hnext before (dataRest ++ after),
        hmap]
      simp only [List.map_eq_nil_iff, Nat.mul_comm items.length, Nat.add_comm (16 * items.length),
        hlength]
    · have h := hlinked hfinal (before ++ (input.kind.record values ++
        vernaux input.kind (fun name => needIndex needs first ⟨file, name⟩) items)) after
      rw [List.length_append, List.length_append, ElfKind.length_record, length_vernaux,
        ← hrecord] at h
      simp only [List.append_assoc] at h
      show Linked _ (before.length + (16 + 16 * (versionsOf needs file).length)) _
      rw [hlength]
      exact h

theorem addDefNames_sound {entries : List VerDefEntry}
    (hnul : ∀ entry ∈ entries, ∀ text ∈ entry.name :: entry.parents, 0 ∉ text) :
    ∀ {t : StrTab} {strings : List (List UInt8)} {defs : List (VerDefEntry × List ℕ)},
      Sound hash t strings → addDefNames hash t entries = .ok (defs, t') →
      ∃ more, Sound hash t' (strings ++ more) ∧ defs.map (·.1) = entries ∧
        ∀ x ∈ defs, List.Forall₂ (Names (strings ++ more)) (x.1.name :: x.1.parents) x.2 := by
  induction entries with
  | nil =>
    intro t strings defs ht hadd
    obtain ⟨rfl, rfl⟩ := Prod.mk.inj (Except.ok.inj hadd)
    exact ⟨[], by rwa [List.append_nil], rfl, fun _ hx => absurd hx List.not_mem_nil⟩
  | cons entry rest ih =>
    intro t strings defs ht hadd
    obtain ⟨hnulEntry, hnulRest⟩ := List.forall_mem_cons.mp hnul
    rw [addDefNames] at hadd
    obtain ⟨⟨offsets, t₁⟩, hone, hadd⟩ := bind_eq_ok.mp hadd
    obtain ⟨⟨defsRest, t₂⟩, hrest, hadd⟩ := bind_eq_ok.mp hadd
    obtain ⟨rfl, rfl⟩ := Prod.mk.inj (Except.ok.inj hadd)
    obtain ⟨more, ht₁, hnames⟩ := addEach_sound ht hnulEntry hone
    obtain ⟨more', ht₂, hmap, hall⟩ := ih hnulRest ht₁ hrest
    refine ⟨more ++ more', by rwa [← List.append_assoc], ?_, ?_⟩
    · rw [List.map_cons, hmap]
    · rw [← List.append_assoc]
      exact List.forall_mem_cons.mpr ⟨hnames.imp fun {_ _} hname => hname.append more', hall⟩

/-- **`.gnu.version_d`.**  The records of the definitions are linked, and read back. -/
theorem putVerdef_linked {kind : ElfKind} {dynstr : List UInt8}
    {defs : List (VerDefEntry × List ℕ)}
    (hdefs : ∀ x ∈ defs, x.1.flags < 2 ^ 16 ∧ x.1.index < 2 ^ 16 ∧
      List.Forall₂ (fun text offset => offset ≤ U32_MAX ∧ stringAt dynstr offset = text)
        (x.1.name :: x.1.parents) x.2) :
    ∀ {data : List UInt8}, putVerdef kind defs = .ok data → ∀ before after : List UInt8,
      Linked (readVerdef kind (before ++ (data ++ after)) dynstr) before.length
        (defs.map fun x => (verdefOf x.1, 20 + (x.1.parents.length + 1) * 8)) := by
  induction defs with
  | nil => exact fun _ _ _ => trivial
  | cons x rest ih =>
    intro data hput before after
    obtain ⟨⟨hflags, hindex, hnames⟩, hrest⟩ := List.forall_mem_cons.mp hdefs
    rw [putVerdef] at hput
    split at hput
    · cases hput
    next hcount =>
    obtain ⟨dataRest, hputRest, hput⟩ := bind_eq_ok.mp hput
    obtain rfl := Except.ok.inj hput
    have hcount := Nat.not_lt.mp hcount
    have hnext : (if rest = [] then 0 else 20 + (x.1.parents.length + 1) * 8) < 2 ^ 32 := by
      have : x.1.parents.length + 1 ≤ 65535 := hcount
      split <;> omega
    generalize hrecord : [(2, 1), (2, x.1.flags), (2, x.1.index), (2, x.1.parents.length + 1),
      (4, sysvHash x.1.name), (4, 20),
      (4, if rest = [] then 0 else 20 + (x.1.parents.length + 1) * 8)] = values at hnext
    have hbytes : kind.e16 1 ++ kind.e16 x.1.flags ++ kind.e16 x.1.index ++
        kind.e16 (x.1.parents.length + 1) ++ kind.e32 (sysvHash x.1.name) ++ kind.e32 20 ++
        kind.e32 (if rest = [] then 0 else 20 + (x.1.parents.length + 1) * 8) ++
        verdaux kind x.2 ++ dataRest ++ after =
        kind.record values ++ (verdaux kind x.2 ++ (dataRest ++ after)) := by
      rw [← hrecord]
      simp [ElfKind.record, ElfKind.e32, ElfKind.e16]
    have hlength : x.2.length = x.1.parents.length + 1 := hnames.length_eq.symm
    rw [hbytes, ← hrecord]
    refine ⟨?_, Nat.lt_add_right _ (Nat.succ_pos 19), ?_⟩
    · rw [readVerdef_record hflags hindex hcount hnames hnext before (dataRest ++ after)]
      simp only [List.map_eq_nil_iff]
    · have h := ih hrest hputRest (before ++ (kind.record values ++ verdaux kind x.2)) after
      rw [List.length_append, List.length_append, ElfKind.length_record, length_verdaux, hlength,
        Nat.mul_comm 8, ← hrecord] at h
      simp only [List.append_assoc] at h
      exact h

end

end Qld.Elf.Dynsym
