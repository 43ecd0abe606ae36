import Qld.Macho.FixupsImports

/-!
# Chained fixups, decoded

* `Decodes` — dyld finds the fixups again: the chains of every page, what each pointer says, and
  the entries of the imports table;
* `Fits` — every ordinal fits the format of the table, and every signing schema has its place;
* `chained_decodes_iff` — the fixups are found again exactly then.
-/

namespace Qld.Macho

open Qld.Lib Read

variable {format : PointerFormat} {fixups : List Fixup} {imports : List Import}

/-! ### The imports table -/

variable {f : Fixup} {symbol : ℕ} {addend : ℤ}

theorem anyBind_eq_false {p : Fixup → ℤ → Bool} (h : anyBind fixups p = false) (hf : f ∈ fixups)
    (hkind : f.kind = .bind symbol addend) :
    p f addend = false := by
  have hfalse := List.any_eq_false.mp h f hf
  rw [hkind] at hfalse
  exact Bool.not_eq_true _ ▸ hfalse

theorem inlineRoom_of_plain (h : importsFormat format fixups = .plain) (hf : f ∈ fixups)
    (hkind : f.kind = .bind symbol addend) :
    inlineRoom format f addend = true := by
  rw [importsFormat] at h
  split at h
  · exact nomatch h
  split at h
  · exact nomatch h
  · next hwide =>
    rw [Bool.not_eq_true] at hwide
    have := anyBind_eq_false hwide hf hkind
    rwa [Bool.not_eq_false'] at this

theorem holdsAddend_of_mem (format : PointerFormat) (hf : f ∈ fixups)
    (hkind : f.kind = .bind symbol addend) : HoldsAddend (importsFormat format fixups) addend := by
  have htyped : -2 ^ 63 ≤ addend ∧ addend < 2 ^ 63 := by
    have := f.typed
    rwa [hkind] at this
  rw [importsFormat]
  split
  · exact htyped
  · next hhuge =>
    rw [Bool.not_eq_true] at hhuge
    have hrange := anyBind_eq_false hhuge hf hkind
    rw [Bool.or_eq_false_iff, decide_eq_false_iff_not, decide_eq_false_iff_not] at hrange
    split
    · exact ⟨by omega, by omega⟩
    · trivial

theorem mem_dedupRuns {α : Type} [DecidableEq α] {l : List α} {x : α} :
    x ∈ dedupRuns l ↔ x ∈ l := by
  induction l with
  | nil => rfl
  | cons y l ih =>
    rw [dedupRuns]
    split
    · next hhead =>
      rw [ih, List.mem_cons]
      refine ⟨.inr, fun h => h.elim (fun hxy => ?_) id⟩
      rw [hxy]
      exact List.mem_of_mem_head? hhead
    · rw [List.mem_cons, List.mem_cons, ih]

variable {key : ℕ × ℤ}

theorem keyOf_eq_some {tableFormat : ImportsFormat} {f : Fixup}
    (h : keyOf format tableFormat f = some key) : ∃ symbol addend,
      f.kind = .bind symbol addend ∧ (inline format tableFormat f symbol addend).2 = key := by
  rw [keyOf] at h
  cases hkind : f.kind with
  | rebase target =>
    rw [hkind] at h
    exact nomatch h
  | bind symbol addend =>
    rw [hkind] at h
    exact ⟨symbol, addend, rfl, Option.some.inj h⟩

theorem mem_importTable (h : importsFormat format fixups ≠ .plain) :
    key ∈ importTable format fixups imports ↔
      ∃ f ∈ fixups, keyOf format (importsFormat format fixups) f = some key := by
  have htable : importTable format fixups imports =
      dedupRuns ((fixups.filterMap (keyOf format (importsFormat format fixups))).mergeSort
        fun a b => a.1 < b.1 || (a.1 = b.1 && a.2 ≤ b.2)) := by
    rw [importTable]
    cases hformat : importsFormat format fixups with
    | plain => exact absurd hformat h
    | addend => rfl
    | addend64 => rfl
  rw [htable, mem_dedupRuns, List.mem_mergeSort, List.mem_filterMap]

theorem importTable_plain (h : importsFormat format fixups = .plain) :
    importTable format fixups imports = (List.range imports.length).map fun index => (index, 0) := by
  rw [importTable, h]

/-- An import that the table lists: any, or one that a fixup binds. -/
def Listed (format : PointerFormat) (fixups : List Fixup) (symbol : ℕ) : Prop :=
  importsFormat format fixups = .plain ∨ ∃ f ∈ fixups, ∃ addend, f.kind = .bind symbol addend

theorem listed_of_mem (h : key ∈ importTable format fixups imports) :
    Listed format fixups key.1 := by
  by_cases hplain : importsFormat format fixups = .plain
  · exact .inl hplain
  · obtain ⟨f, hf, hkey⟩ := (mem_importTable hplain).mp h
    obtain ⟨symbol, addend, hkind, rfl⟩ := keyOf_eq_some hkey
    rw [(inline_spec _ _ _ _ _).1]
    exact .inr ⟨f, hf, addend, hkind⟩

theorem mem_of_listed {m : Import} (h : Listed format fixups symbol)
    (hm : imports[symbol]? = some m) :
    ∃ addend, (symbol, addend) ∈ importTable format fixups imports := by
  by_cases hplain : importsFormat format fixups = .plain
  · refine ⟨0, ?_⟩
    rw [importTable_plain hplain]
    exact List.mem_map.mpr ⟨symbol, List.mem_range.mpr (List.getElem?_eq_some_iff.mp hm).1, rfl⟩
  · obtain ⟨f, hf, addend, hkind⟩ := h.resolve_left hplain
    refine ⟨(inline format (importsFormat format fixups) f symbol addend).2.2,
      (mem_importTable hplain).mpr ⟨f, hf, ?_⟩⟩
    rw [keyOf, hkind]
    exact congrArg some (Prod.ext (inline_spec _ _ _ _ _).1 rfl)

/-- What the table holds of the addend of an entry is all of it. -/
theorem addend_of_mem (h : key ∈ importTable format fixups imports) :
    HoldsAddend (importsFormat format fixups) key.2 ∧
      heldAddend (importsFormat format fixups) key.2 = key.2 := by
  by_cases hplain : importsFormat format fixups = .plain
  · rw [importTable_plain hplain] at h
    obtain ⟨index, -, rfl⟩ := List.mem_map.mp h
    rw [hplain]
    exact ⟨trivial, rfl⟩
  · refine ⟨?_, if_neg hplain⟩
    obtain ⟨f, hf, hkey⟩ := (mem_importTable hplain).mp h
    obtain ⟨symbol, addend, hkind, rfl⟩ := keyOf_eq_some hkey
    have haddend := holdsAddend_of_mem format hf hkind
    rw [inline]
    split
    · show HoldsAddend _ 0
      cases importsFormat format fixups with
      | plain => trivial
      | addend => exact ⟨by decide, by decide⟩
      | addend64 => exact ⟨by decide, by decide⟩
    · exact haddend

/-! ### The blob -/

theorem length_headerBytes (importsOffset symbolsOffset count : ℕ) (tableFormat : ImportsFormat) :
    (headerBytes importsOffset symbolsOffset count tableFormat).length = 32 := by
  simp only [headerBytes, List.length_append, length_leBytes, List.length_replicate]

theorem formatOf_code (tableFormat : ImportsFormat) :
    formatOf tableFormat.code = some tableFormat := by
  cases tableFormat <;> rfl

/-- **The header is read back.** -/
theorem parse_blob {importsOffset symbolsOffset count : ℕ} {tableFormat : ImportsFormat}
    {rest : List UInt8} (himports : importsOffset < 2 ^ 32) (hsymbols : symbolsOffset < 2 ^ 32)
    (hcount : count < 2 ^ 32) (htable : importsOffset + count * entrySize tableFormat ≤ 32 + rest.length)
    (hnames : symbolsOffset ≤ 32 + rest.length) :
    parse (headerBytes importsOffset symbolsOffset count tableFormat ++ rest) =
      .ok ⟨⟨0, 32, importsOffset, symbolsOffset, count, tableFormat⟩,
        headerBytes importsOffset symbolsOffset count tableFormat ++ rest⟩ := by
  have hlength : (headerBytes importsOffset symbolsOffset count tableFormat ++ rest).length =
      32 + rest.length := by
    rw [List.length_append, length_headerBytes]
  have hheader : StandsAt (headerBytes importsOffset symbolsOffset count tableFormat ++ rest) 0
      (headerBytes importsOffset symbolsOffset count tableFormat) := (standsAt_self _).append rest
  generalize hdata : headerBytes importsOffset symbolsOffset count tableFormat ++ rest = data at *
  rw [headerBytes] at hheader
  simp only [List.append_assoc, standsAt_leBytes_append_iff, Nat.reduceAdd] at hheader
  obtain ⟨h₀, h₁, h₂, h₃, h₄, h₅, h₆, -⟩ := hheader
  have hcode : tableFormat.code < 256 ^ 4 := by cases tableFormat <;> decide
  rw [parse]
  dsimp only
  rw [readLe_of_standsAt h₀ (by decide) (by decide), readLe_of_standsAt h₁ (by decide) (by decide),
    readLe_of_standsAt h₂ (by decide) himports, readLe_of_standsAt h₃ (by decide) hsymbols,
    readLe_of_standsAt h₄ (by decide) hcount, readLe_of_standsAt h₅ (by decide) hcode,
    readLe_of_standsAt h₆ (by decide) (by decide)]
  show (okOrElse (formatOf tableFormat.code) _ >>= _) = _
  rw [formatOf_code]
  refine bind_eq_ok.mpr ⟨tableFormat, rfl, ?_⟩
  rw [if_neg (by decide), if_neg (by rw [hlength]; omega), if_neg (by rw [hlength]; omega)]
  rfl

/-! ### What is to hold -/

/-- The fixups of a page of a segment, in address order. -/
def pageFixups (layout : Layout) (pageSize : ℕ) (fixups : List Fixup) (index page : ℕ) :
    List Fixup :=
  (fixups.mergeSort fun a b => a.address ≤ b.address).filter fun f =>
    (layout.segmentOf f.address).any fun place => place.1 = index && place.2 / pageSize = page

/-- Where dyld finds the fixups of a page. -/
def walkPage (c : ChainedFixups) (chosen : PointerFormat) (pageSize : ℕ) (image : List UInt8)
    (segment : OutSegment) (index page fuel : ℕ) : Option (List ℕ) :=
  match pageStart c index page with
  | none => some []
  | some start => walk chosen image fuel (segment.fileoff + page * pageSize + start)

/-- An import, as the table gives it. -/
def IsImport (entry : ChainedImport) (m : Import) : Prop :=
  entry.name = m.name ∧ entry.weakImport = m.weak ∧ entry.libOrdinal = m.ordinal

/-- A pointer gives back its fixup. -/
def Recovers (c : ChainedFixups) (imports : List Import) (f : Fixup) (pointer : Pointer) : Prop :=
  match f.kind with
  | .rebase target => pointer = .rebase target f.auth
  | .bind symbol addend => ∃ index stored entry m, pointer = .bind index stored f.auth ∧
      imports[symbol]? = some m ∧ c.importAt index = .ok entry ∧ IsImport entry m ∧
      stored + entry.addend = addend

/-- The format of the pointers: arm64e has 24-bit ordinals when the table is large. -/
def chosenFormat (format : PointerFormat) (table : List (ℕ × ℤ)) : PointerFormat :=
  if format = .arm64e ∧ 0xffff < table.length then .userland24 else format

/-- dyld finds the fixups again, in the image and a parsed blob. -/
structure DecodesBy (layout : Layout) (imageBase pageSize : ℕ) (format : PointerFormat)
    (fixups : List Fixup) (imports : List Import) (image : List UInt8) (c : ChainedFixups) : Prop where
  /-- The segments with fixups say the page size and the pointer format. -/
  starts : ∀ (index : ℕ) (segment : OutSegment), layout.segments[index]? = some segment →
    (∃ page, pageFixups layout pageSize fixups index page ≠ []) →
    ∃ pos count, segmentStarts c index = some pos ∧ readStarts c pos = some ⟨pageSize,
      (chosenFormat format (importTable format fixups imports)).code,
      (segment.vmaddr + 2 ^ 64 - imageBase) % 2 ^ 64, count⟩
  /-- The chain of a page visits its fixups. -/
  chains : ∀ (index page fuel : ℕ) (segment : OutSegment), layout.segments[index]? = some segment →
    fixups.length ≤ fuel →
    walkPage c (chosenFormat format (importTable format fixups imports)) pageSize image segment
      index page fuel = some ((pageFixups layout pageSize fixups index page).map fun f =>
        segment.fileoff + (f.address - segment.vmaddr))
  pointers : ∀ f ∈ fixups, ∃ file raw, layout.fileOffset f.address = some file ∧
    readLe 8 image file = some raw ∧ Recovers c imports f
      (decode (chosenFormat format (importTable format fixups imports)) imageBase raw)
  /-- No entry of the table is truncated. -/
  entries : ∀ (index : ℕ) (key : ℕ × ℤ) (m : Import),
    (importTable format fixups imports)[index]? = some key → imports[key.1]? = some m →
    ∃ entry, c.importAt index = .ok entry ∧ IsImport entry m

/-- dyld finds the fixups again. -/
def Decodes (layout : Layout) (imageBase pageSize : ℕ) (format : PointerFormat)
    (fixups : List Fixup) (imports : List Import) (image blob : List UInt8) : Prop :=
  ∃ c, parse blob = .ok c ∧ DecodesBy layout imageBase pageSize format fixups imports image c

/-- Every ordinal of the table fits its format, and every signing schema has its place. -/
structure Fits (format : PointerFormat) (fixups : List Fixup) (imports : List Import) : Prop where
  auth : format = .ptr64 → ∀ f ∈ fixups, f.auth = none
  ordinals : ∀ (symbol : ℕ) (m : Import), imports[symbol]? = some m → Listed format fixups symbol →
    HoldsOrdinal (importsFormat format fixups) m.ordinal

/-- The fields of two fixups do not overlap, in memory and in the file. -/
def FieldsApart (layout : Layout) (a b : Fixup) : Prop :=
  (a.address + 8 ≤ b.address ∨ b.address + 8 ≤ a.address) ∧
    ∀ x ∈ layout.fileOffset a.address, ∀ y ∈ layout.fileOffset b.address, x + 8 ≤ y ∨ y + 8 ≤ x

/-! ### What is written -/

theorem locate_places {layout : Layout} {fixup : Fixup} {x : Located}
    (h : locate layout fixup = .ok x) :
    layout.segmentOf fixup.address = some (x.segment, x.offset) ∧
      layout.fileOffset fixup.address = some x.file := by
  obtain ⟨⟨i, offset⟩, hplace, h⟩ := bind_eq_ok.mp h
  obtain ⟨file, hfile, h⟩ := bind_eq_ok.mp h
  obtain rfl := Except.ok.inj h
  exact ⟨okOrElse_eq_ok.mp hplace, okOrElse_eq_ok.mp hfile⟩

/-- Located fixups, sorted, without overlap. -/
structure Places (layout : Layout) (fixups : List Fixup) (located : List Located) : Prop where
  sorted : located.map Located.fixup = fixups.mergeSort fun a b => a.address ≤ b.address
  found : ∀ x ∈ located, locate layout x.fixup = .ok x
  behind : located.Pairwise Behind
  apart : located.Pairwise FilesApart

namespace Places

variable {layout : Layout} {located : List Located}

theorem of_mapM (hapart : fixups.Pairwise (FieldsApart layout))
    (h : (fixups.mergeSort fun a b => a.address ≤ b.address).mapM (locate layout) = .ok located) :
    Places layout fixups located := by
  have hall := mapM_eq_ok.mp h
  have hfixup : ∀ x ∈ located, locate layout x.fixup = .ok x := by
    intro x hx
    obtain ⟨j, hj⟩ := List.getElem?_of_mem hx
    obtain ⟨f, -, hf⟩ := getElem?_of_forall₂ hall j x hj
    rw [(locate_spec hf).1]
    exact hf
  have hmap : located.map Located.fixup = fixups.mergeSort fun a b => a.address ≤ b.address := by
    clear h hfixup
    generalize fixups.mergeSort (fun a b => a.address ≤ b.address) = sorted at hall
    induction hall with
    | nil => rfl
    | cons hxy _ ih => rw [List.map_cons, ih, (locate_spec hxy).1]
  -- the order of the sort, and the fields of the unsorted list
  have hpair : (located.map Located.fixup).Pairwise fun a b =>
      a.address ≤ b.address ∧ FieldsApart layout a b := by
    rw [hmap]
    refine List.Pairwise.and ?_ ?_
    · refine (List.pairwise_mergeSort (fun a b c hab hbc => ?_) (fun a b => ?_) fixups).imp
        fun {a b} hab => of_decide_eq_true hab
      · exact decide_eq_true (Nat.le_trans (of_decide_eq_true hab) (of_decide_eq_true hbc))
      · rw [Bool.or_eq_true, decide_eq_true_eq, decide_eq_true_eq]
        exact Nat.le_total _ _
    · refine (List.Perm.pairwise_iff (fun {a b} hab => ?_)
        (List.mergeSort_perm fixups _)).mpr hapart
      exact ⟨hab.1.symm, fun x hx y hy => (hab.2 y hy x hx).symm⟩
  rw [List.pairwise_map] at hpair
  refine ⟨hmap, hfixup, ?_, ?_⟩
  · refine List.Pairwise.imp_of_mem (fun {x y} hx hy hxy => ?_) hpair
    obtain ⟨-, s, hs⟩ := locate_spec (hfixup x hx)
    obtain ⟨-, t, ht⟩ := locate_spec (hfixup y hy)
    have hfields := hxy.2.1
    have hle := hxy.1
    exact behind_of_address hs ht (by omega)
  · refine List.Pairwise.imp_of_mem (fun {x y} hx hy hxy => ?_) hpair
    exact hxy.2.2 _ (locate_places (hfixup x hx)).2 _ (locate_places (hfixup y hy)).2

theorem mem_fixups (h : Places layout fixups located) {x : Located} (hx : x ∈ located) :
    x.fixup ∈ fixups := by
  have hmem := List.mem_map_of_mem (f := Located.fixup) hx
  rw [h.sorted] at hmem
  exact List.mem_mergeSort.mp hmem

theorem exists_located (h : Places layout fixups located) {f : Fixup} (hf : f ∈ fixups) :
    ∃ x ∈ located, x.fixup = f := by
  have hmem : f ∈ located.map Located.fixup := by
    rw [h.sorted]
    exact List.mem_mergeSort.mpr hf
  exact List.mem_map.mp hmem

theorem length_eq (h : Places layout fixups located) : located.length = fixups.length := by
  have hlen := congrArg List.length h.sorted
  rwa [List.length_map, List.length_mergeSort] at hlen

/-- The fixups of a page are those that are located there. -/
theorem pageFixups_eq (h : Places layout fixups located) (pageSize index page : ℕ) :
    pageFixups layout pageSize fixups index page =
      (located.filter fun x => x.segment = index && x.offset / pageSize = page).map
        Located.fixup := by
  rw [pageFixups, ← h.sorted, List.filter_map]
  congr 1
  refine List.filter_congr fun x hx => ?_
  rw [Function.comp_apply, (locate_places (h.found x hx)).1, Option.any_some]

theorem pageFixups_files (h : Places layout fixups located) {pageSize index page : ℕ}
    {segment : OutSegment} (hsegment : layout.segments[index]? = some segment) :
    (pageFixups layout pageSize fixups index page).map
        (fun f => segment.fileoff + (f.address - segment.vmaddr)) =
      (located.filter fun x => x.segment = index && x.offset / pageSize = page).map
        Located.file := by
  rw [h.pageFixups_eq, List.map_map]
  refine List.map_congr_left fun x hx => ?_
  obtain ⟨hx, hplace⟩ := List.mem_filter.mp hx
  rw [Bool.and_eq_true, decide_eq_true_eq] at hplace
  obtain ⟨-, s, hs⟩ := locate_spec (h.found x hx)
  have hsame := hs.index
  rw [hplace.1, hsegment] at hsame
  obtain rfl := Option.some.inj hsame
  rw [Function.comp_apply, hs.file, hs.offset]

end Places

/-- All that `chained` leaves. -/
structure Written (layout : Layout) (imageBase pageSize : ℕ) (format : PointerFormat)
    (fixups : List Fixup) (imports : List Import) (image : List UInt8) (located : List Located)
    (starts : List UInt8) (entries : Entries) (c : ChainedFixups) : Prop where
  places : Places layout fixups located
  encodes : Encodes format (chosenFormat format (importTable format fixups imports)) imageBase
    (importsFormat format fixups) (importTable format fixups imports) fixups
  linked : Linked format (chosenFormat format (importTable format fixups imports)) imageBase pageSize
    (importsFormat format fixups) (importTable format fixups imports) image located
  record : imageStarts layout (chosenFormat format (importTable format fixups imports)) imageBase
    pageSize located = .ok starts
  few : layout.segments.length < 2 ^ 32
  table : importEntries (importsFormat format fixups) imports (importTable format fixups imports)
    ⟨[], [], []⟩ = .ok entries
  header : c.header = ⟨0, 32, 32 + starts.length, 32 + starts.length + entries.bytes.length,
    (importTable format fixups imports).length, importsFormat format fixups⟩
  small : 32 + starts.length + entries.bytes.length < 2 ^ 32
  startsAt : ∀ pos bytes, StandsAt starts pos bytes → StandsAt c.data (32 + pos) bytes
  bytesAt : ∀ pos bytes, StandsAt entries.bytes pos bytes →
    StandsAt c.data (32 + starts.length + pos) bytes
  symbolsAt : ∀ pos bytes, StandsAt entries.symbols pos bytes →
    StandsAt c.data (32 + starts.length + entries.bytes.length + pos) bytes

theorem named_nil : Named ⟨[], [], []⟩ := fun _ hx => absurd hx List.not_mem_nil

theorem chosenFormat_eq_ptr64 (table : List (ℕ × ℤ)) :
    chosenFormat format table = .ptr64 ↔ format = .ptr64 := by
  rw [chosenFormat]
  split
  · next h =>
    rw [h.1]
    decide
  · rfl

/-- **What `chained` leaves.** -/
theorem chained_written {layout : Layout} {imageBase pageSize : ℕ} {image final blob : List UInt8}
    (hbase : imageBase < 2 ^ 64) (hapart : fixups.Pairwise (FieldsApart layout))
    (h : chained layout imageBase pageSize format fixups imports image = .ok (final, blob)) :
    ∃ located starts entries c, parse blob = .ok c ∧
      Written layout imageBase pageSize format fixups imports final located starts entries c := by
  rw [chained] at h
  dsimp only at h
  split at h
  · exact nomatch h
  split at h
  · exact nomatch h
  next htable =>
  obtain ⟨located, hlocated, h⟩ := bind_eq_ok.mp h
  obtain ⟨written, hwritten, h⟩ := bind_eq_ok.mp h
  obtain ⟨starts, hstarts, h⟩ := bind_eq_ok.mp h
  obtain ⟨entries, hentries, h⟩ := bind_eq_ok.mp h
  split at h
  · exact nomatch h
  next hsmall =>
  obtain ⟨rfl, rfl⟩ := Prod.mk.inj (Except.ok.inj h)
  have hplaces := Places.of_mapM hapart hlocated
  have hencodes : Encodes format (chosenFormat format (importTable format fixups imports)) imageBase
      (importsFormat format fixups) (importTable format fixups imports) fixups :=
    ⟨chosenFormat_eq_ptr64 _, hbase, Nat.lt_of_not_le htable,
      fun f hf symbol addend hkind hplain => inlineRoom_of_plain hplain hf hkind⟩
  obtain ⟨-, -, hsize, -⟩ := importEntries_spec _ named_nil hentries
  have hcount := (imageStarts_spec hstarts).1
  have hoffset : min (32 + min starts.length (2 ^ 32 - 1)) (2 ^ 32 - 1) = 32 + starts.length := by
    omega
  rw [hoffset, pad8, List.append_assoc, List.append_assoc, List.append_assoc]
  generalize hpad : List.replicate _ (0 : UInt8) = padding
  refine ⟨located, starts, entries, _, parse_blob (by omega) (by omega) (by omega) ?_ ?_, hplaces,
    hencodes, (writePointers_spec located hplaces.apart hwritten).2, hstarts, by omega, hentries, rfl,
    by omega, fun pos bytes hat => ?_, fun pos bytes hat => ?_, fun pos bytes hat => ?_⟩
  · rw [List.length_append, List.length_append, hsize, List.length_nil]
    omega
  · rw [List.length_append, List.length_append]
    omega
  · have hhead := StandsAt.append_left (hat.append (entries.bytes ++ (entries.symbols ++ padding)))
      (headerBytes (32 + starts.length) (32 + starts.length + entries.bytes.length)
        (importTable format fixups imports).length (importsFormat format fixups))
    rw [length_headerBytes] at hhead
    exact hhead
  · have hhead := StandsAt.append_left (StandsAt.append_left
      (hat.append (entries.symbols ++ padding)) starts)
      (headerBytes (32 + starts.length) (32 + starts.length + entries.bytes.length)
        (importTable format fixups imports).length (importsFormat format fixups))
    rw [length_headerBytes, ← Nat.add_assoc] at hhead
    exact hhead
  · have hhead := StandsAt.append_left (StandsAt.append_left (StandsAt.append_left
      (hat.append padding) entries.bytes) starts)
      (headerBytes (32 + starts.length) (32 + starts.length + entries.bytes.length)
        (importTable format fixups imports).length (importsFormat format fixups))
    rw [length_headerBytes, ← Nat.add_assoc, ← Nat.add_assoc] at hhead
    exact hhead

namespace Written

variable {layout : Layout} {imageBase pageSize : ℕ} {image : List UInt8} {located : List Located}
  {starts : List UInt8} {entries : Entries} {c : ChainedFixups}

section

variable
  (h : Written layout imageBase pageSize format fixups imports image located starts entries c)

include h

theorem entry {index : ℕ} {key : ℕ × ℤ}
    (hkey : (importTable format fixups imports)[index]? = some key) :
    ∃ m, imports[key.1]? = some m ∧ c.importAt index =
      .ok ⟨heldOrdinal (importsFormat format fixups) m.ordinal, m.weak, m.name, key.2⟩ := by
  obtain ⟨-, -, hsize, hentries⟩ := importEntries_spec _ named_nil h.table
  obtain ⟨m, offset, bytes, hm, hoffset, hname, hbytes, hat⟩ := hentries index key hkey
  obtain ⟨hlt, -⟩ := List.getElem?_eq_some_iff.mp hkey
  obtain ⟨haddend, hheld⟩ := addend_of_mem (List.mem_of_getElem? hkey)
  have hstands := h.bytesAt _ _ hat
  rw [List.length_nil, Nat.zero_add, Nat.add_comm] at hstands
  have hbound : index * entrySize (importsFormat format fixups) <
      (importTable format fixups imports).length * entrySize (importsFormat format fixups) := by
    refine Nat.mul_lt_mul_of_pos_right hlt ?_
    cases importsFormat format fixups <;> decide
  rw [List.length_nil, Nat.zero_add] at hsize
  have hsmall := h.small
  obtain ⟨header, data⟩ := c
  obtain rfl : header = _ := h.header
  refine ⟨m, hm, ?_⟩
  have hread := importAt_spec (c := ⟨_, data⟩) hlt hoffset
    (by dsimp only; omega) haddend hbytes hstands (h.symbolsAt _ _ hname)
  rw [hread]
  dsimp only
  rw [hheld]

/-- What the reader finds of the pages of a segment. -/
theorem pageStart (hsize : pageSize = 4096 ∨ pageSize = 16384) {index : ℕ} {segment : OutSegment}
    (hsegment : layout.segments[index]? = some segment) :
    (∀ page, Read.pageStart c index page =
      ((pagesOf pageSize located index).find? fun x => x.1 = page).map Prod.snd) ∧
    (pagesOf pageSize located index ≠ [] → ∃ pos count, segmentStarts c index = some pos ∧
      readStarts c pos = some ⟨pageSize,
        (chosenFormat format (importTable format fixups imports)).code,
        (segment.vmaddr + 2 ^ 64 - imageBase) % 2 ^ 64, count⟩) := by
  refine pageStart_spec (by omega) h.places.behind h.record h.few hsegment fun pos bytes hat => ?_
  rw [h.header]
  exact h.startsAt pos bytes hat

end

theorem find_pagesOf (pageSize index page : ℕ) (located : List Located) :
    ((pagesOf pageSize located index).find? fun x => x.1 = page).map Prod.snd =
      (located.filter fun x => x.segment = index && x.offset / pageSize = page).head?.map
        fun x => x.offset % pageSize := by
  have hfilter : (located.filter fun x => x.segment = index && x.offset / pageSize = page) =
      (located.filter fun x => x.segment = index).filter fun x => x.offset / pageSize = page := by
    rw [List.filter_filter]
    refine List.filter_congr fun x _ => ?_
    exact Bool.and_comm _ _
  rw [hfilter, List.head?_filter, pagesOf, List.find?_map, Option.map_map]
  rfl

/-- **The chain of a page visits its fixups.** -/
theorem walkPage_eq (h : Written layout imageBase pageSize format fixups imports image located starts
    entries c) (hsize : pageSize = 4096 ∨ pageSize = 16384) {index page fuel : ℕ}
    {segment : OutSegment} (hsegment : layout.segments[index]? = some segment)
    (hfuel : fixups.length ≤ fuel) :
    walkPage c (chosenFormat format (importTable format fixups imports)) pageSize image segment
      index page fuel = some ((pageFixups layout pageSize fixups index page).map fun f =>
        segment.fileoff + (f.address - segment.vmaddr)) := by
  rw [h.places.pageFixups_files hsegment, walkPage, (h.pageStart hsize hsegment).1 page,
    find_pagesOf]
  cases hpage : located.filter fun x => x.segment = index && x.offset / pageSize = page with
  | nil => rfl
  | cons x rest =>
    obtain ⟨before, after, hsplit, -, hx, hrest⟩ := List.filter_eq_cons_iff.mp hpage
    rw [Bool.and_eq_true, decide_eq_true_eq, decide_eq_true_eq] at hx
    have hmem : ∀ y ∈ x :: after, y ∈ located := fun y hy => by
      rw [hsplit]
      exact List.mem_append_right _ hy
    have hplaced : ∀ y ∈ x :: after, y.fixup ∈ fixups ∧ ∃ segment, PlacedIn layout y segment :=
      fun y hy => ⟨h.places.mem_fixups (hmem y hy),
        (locate_spec (h.places.found y (hmem y hy))).2⟩
    obtain ⟨-, s, hs⟩ := hplaced x List.mem_cons_self
    have hsame := hs.index
    rw [hx.1, hsegment] at hsame
    obtain rfl := Option.some.inj hsame
    have hstart : segment.fileoff + page * pageSize + x.offset % pageSize = x.file := by
      rw [hs.file, Nat.add_assoc, ← hx.2, Nat.mul_comm, Nat.div_add_mod]
    have hpages : samePage pageSize x =
        fun y => decide (y.segment = index) && decide (y.offset / pageSize = page) := by
      funext y
      rw [samePage, hx.1, hx.2]
    have hlinked := h.linked
    have hbehind := h.places.behind
    have hlength := h.places.length_eq
    rw [hsplit] at hlinked hbehind hlength
    rw [List.length_append, List.length_cons] at hlength
    show walk _ image fuel (segment.fileoff + page * pageSize + x.offset % pageSize) = _
    rw [hstart, walk_linked h.encodes after hlinked.of_append (List.pairwise_append.mp hbehind).2.1
      hplaced (by omega), hpages, List.filter_cons_of_pos (by rw [hx.1, hx.2]; simp), hrest]

/-- **What the pointer of a fixup says.** -/
theorem pointer (h : Written layout imageBase pageSize format fixups imports image located starts
    entries c) {f : Fixup} (hf : f ∈ fixups) :
    ∃ file raw, layout.fileOffset f.address = some file ∧ readLe 8 image file = some raw ∧
      Says (importTable format fixups imports) f.kind (heldAuth format f)
        (decode (chosenFormat format (importTable format fixups imports)) imageBase raw) := by
  obtain ⟨x, hx, rfl⟩ := h.places.exists_located hf
  obtain ⟨before, after, hsplit⟩ := List.append_of_mem hx
  have hlinked := h.linked
  rw [hsplit] at hlinked
  obtain ⟨next, raw, -, hread, -, hsaid⟩ := hlinked.of_append.read h.encodes hf
  exact ⟨x.file, raw, (locate_places (h.places.found x hx)).2, hread, hsaid⟩

end Written

/-! ### What is found again -/

section Decoded

variable {layout : Layout} {imageBase pageSize : ℕ} {image : List UInt8} {located : List Located}
  {starts : List UInt8} {entries : Entries} {c : ChainedFixups}

theorem Fits.heldAuth_eq (h : Fits format fixups imports) {f : Fixup} (hf : f ∈ fixups) :
    heldAuth format f = f.auth := by
  rw [heldAuth]
  split
  · next hformat => exact (h.auth hformat f hf).symm
  · rfl

theorem Written.isImport (h : Written layout imageBase pageSize format fixups imports image located
    starts entries c) (hfits : Fits format fixups imports) {index : ℕ} {key : ℕ × ℤ}
    (hkey : (importTable format fixups imports)[index]? = some key) :
    ∃ entry m, imports[key.1]? = some m ∧ c.importAt index = .ok entry ∧ IsImport entry m ∧
      entry.addend = key.2 := by
  obtain ⟨m, hm, hread⟩ := h.entry hkey
  have hordinal := hfits.ordinals key.1 m hm (listed_of_mem (List.mem_of_getElem? hkey))
  exact ⟨_, m, hm, hread, ⟨rfl, rfl, (heldOrdinal_eq_iff _ _).mpr hordinal⟩, rfl⟩

/-- A pointer gives back its fixup, when the table fits. -/
theorem Written.recovers (h : Written layout imageBase pageSize format fixups imports image located
    starts entries c) (hfits : Fits format fixups imports) {f : Fixup} {pointer : Pointer}
    (hf : f ∈ fixups)
    (hsaid : Says (importTable format fixups imports) f.kind (heldAuth format f) pointer) :
    Recovers c imports f pointer := by
  rw [hfits.heldAuth_eq hf] at hsaid
  rw [Recovers]
  cases hkind : f.kind with
  | rebase target =>
    rw [hkind] at hsaid
    exact hsaid
  | bind symbol addend =>
    rw [hkind] at hsaid
    obtain ⟨index, stored, rest, hpointer, hkey, hsum⟩ := hsaid
    obtain ⟨entry, m, hm, hread, himport, haddend⟩ := h.isImport hfits hkey
    exact ⟨index, stored, entry, m, hpointer, hm, hread, himport, by rw [haddend]; exact hsum⟩

/-- **The fixups are found again when the table fits.** -/
theorem Written.decodesBy (h : Written layout imageBase pageSize format fixups imports image located
    starts entries c) (hsize : pageSize = 4096 ∨ pageSize = 16384)
    (hfits : Fits format fixups imports) :
    DecodesBy layout imageBase pageSize format fixups imports image c := by
  refine ⟨fun index segment hsegment hsome => ?_, fun index page fuel segment hsegment hfuel =>
    h.walkPage_eq hsize hsegment hfuel, fun f hf => ?_, fun index key m hkey hm => ?_⟩
  · refine (h.pageStart hsize hsegment).2 fun hnone => ?_
    obtain ⟨page, hpage⟩ := hsome
    apply hpage
    rw [h.places.pageFixups_eq, List.map_eq_nil_iff]
    rw [pagesOf, List.map_eq_nil_iff, List.filter_eq_nil_iff] at hnone
    refine List.filter_eq_nil_iff.mpr fun x hx hboth => hnone x hx ?_
    rw [Bool.and_eq_true] at hboth
    exact hboth.1
  · obtain ⟨file, raw, hfile, hread, hsaid⟩ := h.pointer hf
    exact ⟨file, raw, hfile, hread, h.recovers hfits hf hsaid⟩
  · obtain ⟨entry, m', hm', hread, himport, -⟩ := h.isImport hfits hkey
    obtain rfl := Option.some.inj (hm.symm.trans hm')
    exact ⟨entry, hread, himport⟩

/-- **The table fits when the fixups are found again.** -/
theorem Written.fits (h : Written layout imageBase pageSize format fixups imports image located
    starts entries c)
    (hdecodes : DecodesBy layout imageBase pageSize format fixups imports image c) :
    Fits format fixups imports := by
  refine ⟨fun hformat f hf => ?_, fun symbol m hm hlisted => ?_⟩
  · obtain ⟨file, raw, hfile, hread, hrecovers⟩ := hdecodes.pointers f hf
    obtain ⟨file', raw', hfile', hread', hsaid⟩ := h.pointer hf
    obtain rfl := Option.some.inj (hfile.symm.trans hfile')
    obtain rfl := Option.some.inj (hread.symm.trans hread')
    rw [heldAuth, if_pos hformat] at hsaid
    rw [Recovers] at hrecovers
    cases hkind : f.kind with
    | rebase target =>
      rw [hkind] at hsaid hrecovers
      have hsame := hrecovers.symm.trans hsaid
      injection hsame
    | bind symbol addend =>
      rw [hkind] at hsaid hrecovers
      obtain ⟨index, stored, rest, hpointer, -⟩ := hsaid
      obtain ⟨index', stored', entry, m, hpointer', -⟩ := hrecovers
      have hsame := hpointer'.symm.trans hpointer
      injection hsame
  · obtain ⟨addend, hmem⟩ := mem_of_listed hlisted hm
    obtain ⟨index, hkey⟩ := List.getElem?_of_mem hmem
    obtain ⟨entry, hread, -, -, hordinal⟩ := hdecodes.entries index _ m hkey hm
    obtain ⟨m', hm', hread'⟩ := h.entry hkey
    obtain rfl := Option.some.inj (hm.symm.trans hm')
    obtain rfl := Except.ok.inj (hread.symm.trans hread')
    exact (heldOrdinal_eq_iff _ _).mp hordinal

end Decoded

/-- **dyld finds the fixups again exactly when the table fits (proved).**  Nothing checks that an
ordinal fits the 8 bits, or 16 bits, that the chosen table has for it. -/
theorem chained_decodes_iff {layout : Layout} {imageBase pageSize : ℕ} {format : PointerFormat}
    {fixups : List Fixup} {imports : List Import} {image final blob : List UInt8}
    (hbase : imageBase < 2 ^ 64) (hsize : pageSize = 4096 ∨ pageSize = 16384)
    (hapart : fixups.Pairwise (FieldsApart layout))
    (h : chained layout imageBase pageSize format fixups imports image = .ok (final, blob)) :
    Decodes layout imageBase pageSize format fixups imports final blob ↔
      Fits format fixups imports := by
  obtain ⟨located, starts, entries, c, hparse, hwritten⟩ := chained_written hbase hapart h
  refine ⟨fun ⟨c', hparse', hdecodes⟩ => ?_, fun hfits => ⟨c, hparse, hwritten.decodesBy hsize hfits⟩⟩
  obtain rfl := Except.ok.inj (hparse.symm.trans hparse')
  exact hwritten.fits hdecodes

/-- A `__DATA` of one pointer. -/
def sampleLayout : Layout where
  segments := [⟨[95, 95, 68, 65, 84, 65], 2 ^ 32, 2 ^ 14, 0, 8⟩]
  ordered := List.pairwise_singleton _ _
  inside := by decide

/-- The pointer binds to the one import. -/
def sampleFixup : Fixup := ⟨2 ^ 32, .bind 0 0, none, by decide⟩

/-- `_f` of a library. -/
def sampleImport (ordinal : ℤ) : Import := ⟨[95, 102], ordinal, false, by decide⟩

/-- A bind to the first library is found again. -/
theorem chained_sample : ∃ final blob, chained sampleLayout (2 ^ 32) 4096 .ptr64 [sampleFixup]
    [sampleImport 1] (List.replicate 8 0) = .ok (final, blob) ∧
    Decodes sampleLayout (2 ^ 32) 4096 .ptr64 [sampleFixup] [sampleImport 1] final blob := by
  have hok : (chained sampleLayout (2 ^ 32) 4096 .ptr64 [sampleFixup] [sampleImport 1]
      (List.replicate 8 0)).isOk = true := by decide +kernel
  obtain ⟨⟨final, blob⟩, h⟩ := exists_ok_of_isOk hok
  refine ⟨final, blob, h, (chained_decodes_iff (by decide) (.inl rfl)
    (List.pairwise_singleton _ _) h).mpr ⟨fun _ f hf => ?_, fun symbol m hm _ => ?_⟩⟩
  · rw [List.mem_singleton.mp hf]
    rfl
  · rw [List.mem_singleton.mp (List.mem_of_getElem? hm)]
    exact ⟨by decide, by split <;> decide⟩

/-- **A bind to the 256th library names another.**  Its ordinal is written as `0`. -/
theorem chained_ordinal_truncated : [sampleFixup].Pairwise (FieldsApart sampleLayout) ∧
    ∃ final blob, chained sampleLayout (2 ^ 32) 4096 .ptr64 [sampleFixup] [sampleImport 256]
      (List.replicate 8 0) = .ok (final, blob) ∧
    ¬ Decodes sampleLayout (2 ^ 32) 4096 .ptr64 [sampleFixup] [sampleImport 256] final blob := by
  have hok : (chained sampleLayout (2 ^ 32) 4096 .ptr64 [sampleFixup] [sampleImport 256]
      (List.replicate 8 0)).isOk = true := by decide +kernel
  obtain ⟨⟨final, blob⟩, h⟩ := exists_ok_of_isOk hok
  refine ⟨List.pairwise_singleton _ _, final, blob, h, ?_⟩
  rintro ⟨c', hparse', hdecodes⟩
  obtain ⟨located, starts, entries, c, hparse, hwritten⟩ :=
    chained_written (by decide) (List.pairwise_singleton _ _) h
  obtain rfl := Except.ok.inj (hparse.symm.trans hparse')
  have hplain : importsFormat .ptr64 [sampleFixup] = .plain := by decide +kernel
  have hordinal := (hwritten.fits hdecodes).ordinals 0 (sampleImport 256) rfl (.inl hplain)
  rw [hplain] at hordinal
  exact absurd hordinal.2 (by decide)

end Qld.Macho
