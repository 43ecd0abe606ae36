import Qld.Macho.FixupsChains

/-!
# The page starts and the imports table of the blob

* `pageStarts_getElem?` — a page starts at its first fixup;
* `RecordAt` — the fields of `dyld_chained_starts_in_segment`;
* `imageStarts_spec` — every segment with fixups has its record, where its slot says;
* `importEntries_spec` — every entry of the table stands in its place, with its name;
* `heldOrdinal` — what is left of an ordinal in the bits of a format; `Holds` — the ordinals that
  survive;
* `rawImport_spec`, `importAt_spec` — what the reader finds.
-/

namespace Qld.Macho

open Qld.Lib Read

/-! ### Pages -/

@[simp] theorem length_pageStarts (pageCount : ℕ) (pages : List (ℕ × ℕ)) :
    (pageStarts pageCount pages).length = pageCount := by
  induction pages with
  | nil => exact List.length_replicate
  | cons x pages ih =>
    rw [pageStarts, List.foldr_cons, List.length_set]
    exact ih

/-- **A page starts at its first fixup.** -/
theorem pageStarts_getElem? {pageCount page : ℕ} {pages : List (ℕ × ℕ)} (hpage : page < pageCount)
    (hsmall : ∀ x ∈ pages, x.2 < 2 ^ 16) :
    (pageStarts pageCount pages)[page]? =
      some (((pages.find? fun x => x.1 = page).map Prod.snd).getD startNone) := by
  induction pages with
  | nil => exact (List.getElem?_replicate_of_lt hpage)
  | cons x pages ih =>
    obtain ⟨hx, hpages⟩ := List.forall_mem_cons.mp hsmall
    have hlen : page < (pageStarts pageCount pages).length := by
      rw [length_pageStarts]
      exact hpage
    rw [pageStarts, List.foldr_cons, if_pos hx]
    change ((pageStarts pageCount pages).set x.1 x.2)[page]? = _
    by_cases hsame : x.1 = page
    · have hfirst : decide (x.1 = page) = true := decide_eq_true hsame
      rw [hsame, List.getElem?_set_self hlen, List.find?_cons, hfirst]
      rfl
    · have hfirst : decide (x.1 = page) = false := decide_eq_false hsame
      rw [List.getElem?_set_ne hsame, ih hpages, List.find?_cons, hfirst]

/-! ### Records -/

/-- The fields of `dyld_chained_starts_in_segment`. -/
structure RecordAt (data : List UInt8) (pos : ℕ) (chosen : PointerFormat) (pageSize offset : ℕ)
    (starts : List ℕ) : Prop where
  pageSize : StandsAt data (pos + 4) (leBytes 2 pageSize)
  format : StandsAt data (pos + 6) (leBytes 2 chosen.code)
  offset : StandsAt data (pos + 8) (leBytes 8 offset)
  pageCount : StandsAt data (pos + 20) (leBytes 2 starts.length)
  small : starts.length < 2 ^ 16
  starts : ∀ (page start : ℕ), starts[page]? = some start →
    StandsAt data (pos + 22 + page * 2) (leBytes 2 start)

theorem segmentRecord_spec {chosen : PointerFormat} {imageBase pageSize lastPage : ℕ}
    {segment : OutSegment} {pages : List (ℕ × ℕ)} {record : List UInt8}
    (hsize : pageSize < 2 ^ 16)
    (h : segmentRecord chosen imageBase pageSize segment pages lastPage = .ok record)
    {data : List UInt8} {pos : ℕ} (hat : StandsAt data pos record) :
    RecordAt data pos chosen pageSize ((segment.vmaddr + 2 ^ 64 - imageBase) % 2 ^ 64)
      (pageStarts (lastPage + 1) pages) := by
  rw [segmentRecord] at h
  split at h
  · exact nomatch h
  · next hcount =>
    obtain rfl := Except.ok.inj h
    rw [pad8] at hat
    simp only [List.append_assoc, standsAt_leBytes_append_iff] at hat
    obtain ⟨-, hsize', hformat, hoffset, -, hpages, hstarts⟩ := hat
    refine ⟨hsize', hformat, hoffset, ?_, ?_, fun page start hstart => ?_⟩
    · rw [length_pageStarts]
      exact hpages
    · rw [length_pageStarts]
      omega
    · exact (standsAt_append_iff.mp hstarts).1.trans
        (standsAt_flatMap (fun value => length_leBytes 2 value) hstart)
        (by rw [length_leBytes]; decide)

/-! ### All segments -/

section Starts

variable {chosen : PointerFormat} {imageBase pageSize : ℕ} {located : List Located}

/-- What the starts say of a segment: nothing, or where its record is. -/
def SegmentAt (chosen : PointerFormat) (imageBase pageSize : ℕ) (located : List Located)
    (data : List UInt8) (index : ℕ) (segment : OutSegment) : Prop :=
  match (pagesOf pageSize located index).getLast? with
  | none => StandsAt data (4 + index * 4) (leBytes 4 0)
  | some last => ∃ pos record, 0 < pos ∧ pos < 2 ^ 32 ∧
      StandsAt data (4 + index * 4) (leBytes 4 pos) ∧
      segmentRecord chosen imageBase pageSize segment (pagesOf pageSize located index) last.1 =
        .ok record ∧
      StandsAt data pos record

/-- **Every segment has its record.**  The slots of the segments are `0` before. -/
theorem addStarts_spec (segments : List OutSegment) : ∀ {index : ℕ} {starts final : List UInt8},
    4 + (index + segments.length) * 4 ≤ starts.length →
    (∀ k < segments.length, StandsAt starts (4 + (index + k) * 4) (leBytes 4 0)) →
    addStarts chosen imageBase pageSize located index segments starts = .ok final →
    starts.length ≤ final.length ∧
    (∀ pos bytes, StandsAt starts pos bytes →
      pos + bytes.length ≤ 4 + index * 4 ∨ 4 + (index + segments.length) * 4 ≤ pos →
      StandsAt final pos bytes) ∧
    ∀ (k : ℕ) (segment : OutSegment), segments[k]? = some segment →
      SegmentAt chosen imageBase pageSize located final (index + k) segment := by
  induction segments with
  | nil =>
    intro index starts final _ _ h
    obtain rfl := Except.ok.inj h
    exact ⟨le_rfl, fun pos bytes hat _ => hat, fun k segment hk => (nomatch hk)⟩
  | cons segment segments ih =>
    intro index starts final hlen hzero h
    rw [List.length_cons] at hlen
    have hslot := hzero 0 (Nat.succ_pos _)
    have hslots : ∀ k < segments.length, StandsAt starts (4 + (index + 1 + k) * 4) (leBytes 4 0) := by
      intro k hk
      rw [Nat.add_right_comm, Nat.add_assoc]
      exact hzero (k + 1) (Nat.succ_lt_succ hk)
    rw [addStarts] at h
    cases hlast : (pagesOf pageSize located index).getLast? with
    | none =>
      rw [hlast] at h
      obtain ⟨hle, hframe, hsegments⟩ := ih (by omega) hslots h
      refine ⟨hle, fun pos bytes hat hout => ?_, fun k t hk => ?_⟩
      · rw [List.length_cons] at hout
        exact hframe pos bytes hat (by omega)
      · cases k with
        | zero =>
          rw [SegmentAt, Nat.add_zero, hlast]
          exact hframe _ _ hslot (by rw [length_leBytes]; omega)
        | succ k =>
          have := hsegments k t hk
          rw [Nat.add_right_comm, Nat.add_assoc] at this
          exact this
    | some last =>
      rw [hlast] at h
      dsimp only at h
      split at h
      · exact nomatch h
      · next hsmall =>
        obtain ⟨record, hrecord, h⟩ := bind_eq_ok.mp h
        have hfits : 4 + index * 4 + (leBytes 4 starts.length).length ≤ starts.length := by
          rw [length_leBytes]
          omega
        rw [putLe, if_pos (by omega), Option.getD_some] at h
        have hkeep : ∀ pos bytes, StandsAt starts pos bytes →
            pos + bytes.length ≤ 4 + index * 4 ∨ 4 + (index + 1) * 4 ≤ pos →
            StandsAt (overwrite starts (4 + index * 4) (leBytes 4 starts.length) ++ record) pos
              bytes := by
          intro pos bytes hat hout
          refine (hat.overwrite hfits ?_).append record
          rw [length_leBytes]
          omega
        have hlength : (overwrite starts (4 + index * 4) (leBytes 4 starts.length)).length =
            starts.length := length_overwrite hfits
        obtain ⟨hle, hframe, hsegments⟩ := ih (by rw [List.length_append, hlength]; omega)
          (fun k hk => hkeep _ _ (hslots k hk) (by omega)) h
        rw [List.length_append, hlength] at hle
        refine ⟨by omega, fun pos bytes hat hout => ?_, fun k t hk => ?_⟩
        · rw [List.length_cons] at hout
          exact hframe pos bytes (hkeep pos bytes hat (by omega)) (by omega)
        · cases k with
          | zero =>
            obtain rfl := Option.some.inj hk
            rw [SegmentAt, Nat.add_zero, hlast]
            refine ⟨starts.length, record, by omega, by omega, ?_, hrecord, ?_⟩
            · exact hframe _ _ ((standsAt_overwrite hfits).append record)
                (by rw [length_leBytes]; omega)
            · have hat := standsAt_append
                (overwrite starts (4 + index * 4) (leBytes 4 starts.length)) record []
              rw [List.append_nil, hlength] at hat
              exact hframe _ _ hat (by omega)
          | succ k =>
            have := hsegments k t hk
            rw [Nat.add_right_comm, Nat.add_assoc] at this
            exact this

variable {layout : Layout} {starts : List UInt8}

/-- **The starts of the image.** -/
theorem imageStarts_spec (h : imageStarts layout chosen imageBase pageSize located = .ok starts) :
    4 + layout.segments.length * 4 ≤ starts.length ∧
    (layout.segments.length < 2 ^ 32 → StandsAt starts 0 (leBytes 4 layout.segments.length)) ∧
    ∀ (k : ℕ) (segment : OutSegment), layout.segments[k]? = some segment →
      SegmentAt chosen imageBase pageSize located starts k segment := by
  rw [imageStarts] at h
  generalize hcount : (if layout.segments.length < 2 ^ 32 then layout.segments.length else 0) =
    count at h
  have hlen : (pad8 (leBytes 4 count ++
      List.replicate (layout.segments.length * 4) 0)).length ≥ 4 + layout.segments.length * 4 := by
    rw [pad8]
    simp only [List.length_append, length_leBytes, List.length_replicate]
    omega
  have hzero : ∀ k < layout.segments.length, StandsAt (pad8 (leBytes 4 count ++
      List.replicate (layout.segments.length * 4) 0)) (4 + (0 + k) * 4) (leBytes 4 0) := by
    intro k hk
    rw [pad8]
    refine StandsAt.append ?_ _
    have hat : StandsAt (leBytes 4 count ++ List.replicate (layout.segments.length * 4) (0 : UInt8))
        ((leBytes 4 count).length + k * 4) (leBytes 4 0) := by
      refine StandsAt.append_left (fun m hm => ?_) _
      rw [length_leBytes] at hm
      rw [List.getElem?_replicate_of_lt (by omega)]
      match m, hm with
      | 0, _ => rfl
      | 1, _ => rfl
      | 2, _ => rfl
      | 3, _ => rfl
    rw [length_leBytes] at hat
    rw [Nat.zero_add]
    exact hat
  obtain ⟨hle, hframe, hsegments⟩ := addStarts_spec layout.segments (by omega) hzero h
  refine ⟨by omega, fun hsmall => ?_, fun k segment hk => ?_⟩
  · rw [if_pos hsmall] at hcount
    subst hcount
    refine hframe 0 _ ?_ (.inl (by rw [length_leBytes]))
    rw [pad8, List.append_assoc]
    exact (standsAt_self (leBytes 4 layout.segments.length)).append _
  · have := hsegments k segment hk
    rw [Nat.zero_add] at this
    exact this

/-! ### Reading -/

variable {index : ℕ}

theorem pagesOf_le_last (hbehind : located.Pairwise Behind) {last : ℕ × ℕ}
    (hlast : (pagesOf pageSize located index).getLast? = some last) :
    ∀ x ∈ pagesOf pageSize located index, x.1 ≤ last.1 := by
  have hsorted : (pagesOf pageSize located index).Pairwise fun x y => x.1 ≤ y.1 := by
    rw [pagesOf, List.pairwise_map, List.pairwise_filter]
    refine hbehind.imp fun {x y} hxy hx hy => ?_
    rw [decide_eq_true_eq] at hx hy
    rcases hxy with hlt | ⟨-, hle⟩
    · omega
    · exact Nat.div_le_div_right (by omega)
  obtain ⟨before, hsplit⟩ := List.getLast?_eq_some_iff.mp hlast
  rw [hsplit] at hsorted ⊢
  intro x hx
  rcases List.mem_append.mp hx with hx | hx
  · exact (List.pairwise_append.mp hsorted).2.2 x hx last (List.mem_singleton_self last)
  · rw [List.mem_singleton.mp hx]

/-- **The record of a segment is found, and a page starts at its first fixup.** -/
theorem pageStart_spec {c : ChainedFixups} {segment : OutSegment}
    (hsize : 0 < pageSize ∧ pageSize ≤ 2 ^ 14) (hbehind : located.Pairwise Behind)
    (hstarts : imageStarts layout chosen imageBase pageSize located = .ok starts)
    (hcount : layout.segments.length < 2 ^ 32) (hsegment : layout.segments[index]? = some segment)
    (hat : ∀ pos bytes, StandsAt starts pos bytes →
      StandsAt c.data (c.header.startsOffset + pos) bytes) :
    (∀ page, pageStart c index page =
      ((pagesOf pageSize located index).find? fun x => x.1 = page).map Prod.snd) ∧
    (pagesOf pageSize located index ≠ [] → ∃ pos count, segmentStarts c index = some pos ∧
      readStarts c pos = some ⟨pageSize, chosen.code,
        (segment.vmaddr + 2 ^ 64 - imageBase) % 2 ^ 64, count⟩) := by
  obtain ⟨-, hfirst, hsegments⟩ := imageStarts_spec hstarts
  obtain ⟨hindex, -⟩ := List.getElem?_eq_some_iff.mp hsegment
  have hread : readLe 4 c.data c.header.startsOffset = some layout.segments.length :=
    readLe_of_standsAt (hat 0 _ (hfirst hcount)) (by decide) hcount
  have hsmall : ∀ x ∈ pagesOf pageSize located index, x.2 < 2 ^ 14 := by
    intro x hx
    obtain ⟨y, -, rfl⟩ := List.mem_map.mp hx
    exact (Nat.mod_lt _ hsize.1).trans_le hsize.2
  have hslot := hsegments index segment hsegment
  rw [SegmentAt] at hslot
  cases hlast : (pagesOf pageSize located index).getLast? with
  | none =>
    rw [hlast] at hslot
    rw [List.getLast?_eq_none_iff] at hlast
    have hzero : readLe 4 c.data (c.header.startsOffset + (4 + index * 4)) = some 0 :=
      readLe_of_standsAt (hat _ _ hslot) (by decide) (by decide)
    refine ⟨fun page => ?_, fun hne => absurd hlast hne⟩
    have hnone : segmentStarts c index = none := by
      rw [segmentStarts, hread, Option.bind_eq_bind, Option.bind_some, if_neg (by omega),
        Nat.add_assoc, hzero]
      rfl
    rw [pageStart, hnone, hlast]
    rfl
  | some last =>
    rw [hlast] at hslot
    obtain ⟨pos, record, hpos, hlt, hslot, hrecord, hblock⟩ := hslot
    have hsome : segmentStarts c index = some (c.header.startsOffset + pos) := by
      have hvalue : readLe 4 c.data (c.header.startsOffset + (4 + index * 4)) = some pos :=
        readLe_of_standsAt (hat _ _ hslot) (by decide) hlt
      rw [segmentStarts, hread, Option.bind_eq_bind, Option.bind_some, if_neg (by omega),
        Nat.add_assoc, hvalue, Option.bind_some, if_neg (by omega)]
    obtain ⟨hps, hformat, hoffset, hpages, hfew, hpage⟩ :=
      segmentRecord_spec (by omega) hrecord (hat _ _ hblock)
    have hcode : chosen.code < 2 ^ 16 := by cases chosen <;> decide
    rw [length_pageStarts] at hpages hfew
    have hrecord : readStarts c (c.header.startsOffset + pos) = some ⟨pageSize, chosen.code,
        (segment.vmaddr + 2 ^ 64 - imageBase) % 2 ^ 64, last.1 + 1⟩ := by
      rw [readStarts, readLe_of_standsAt hps (by decide) (by omega),
        readLe_of_standsAt hformat (by decide) hcode,
        readLe_of_standsAt hoffset (by decide) (Nat.mod_lt _ (Nat.two_pow_pos 64)),
        readLe_of_standsAt hpages (by decide) hfew]
      rfl
    refine ⟨fun page => ?_, fun _ => ⟨_, _, hsome, hrecord⟩⟩
    rw [pageStart, hsome, Option.bind_eq_bind, Option.bind_some, hrecord, Option.bind_eq_bind,
      Option.bind_some]
    by_cases hle : last.1 + 1 ≤ page
    · have hfind : ((pagesOf pageSize located index).find? fun x => x.1 = page) = none := by
        rw [List.find?_eq_none]
        intro x hx
        have := pagesOf_le_last hbehind hlast x hx
        rw [decide_eq_true_eq]
        omega
      rw [if_pos hle, hfind]
      rfl
    · have hget := pageStarts_getElem? (by omega : page < last.1 + 1)
        (fun x hx => (hsmall x hx).trans (by decide : 2 ^ 14 < 2 ^ 16))
      have hstands := hpage page _ hget
      cases hfind : (pagesOf pageSize located index).find? fun x => x.1 = page with
      | none =>
        rw [hfind] at hstands
        have hvalue := readLe_of_standsAt hstands (by decide) (by decide : startNone < 256 ^ 2)
        rw [if_neg hle, hvalue]
        rfl
      | some x =>
        rw [hfind, Option.map_some, Option.getD_some] at hstands
        have hx := hsmall x (List.mem_of_find?_eq_some hfind)
        have hvalue := readLe_of_standsAt hstands (by decide) (by omega)
        rw [if_neg hle, hvalue, Option.bind_some, if_neg (by rw [startNone]; omega)]
        rfl

end Starts

/-! ### Entries -/

variable {m : Import} {addend : ℤ} {offset : ℕ} {bytes : List UInt8}

variable {format : ImportsFormat}

theorem length_importEntry (h : importEntry format m addend offset = .ok bytes) :
    bytes.length = entrySize format := by
  rw [importEntry] at h
  cases format with
  | addend64 =>
    obtain rfl := Except.ok.inj h
    rw [List.length_append, length_leBytes, length_leBytes]
    rfl
  | plain =>
    rw [if_neg (by decide)] at h
    split at h
    · exact nomatch h
    · obtain rfl := Except.ok.inj h
      rw [List.length_append, length_leBytes]
      rfl
  | addend =>
    rw [if_neg (by decide)] at h
    split at h
    · exact nomatch h
    · obtain rfl := Except.ok.inj h
      rw [List.length_append, length_leBytes, if_pos rfl, length_leBytes]
      rfl

/-- The names are where their offsets say. -/
def Named (entries : Entries) : Prop :=
  ∀ x ∈ entries.offsets, x.2 < 2 ^ 32 ∧ StandsAt entries.symbols x.2 (x.1 ++ [0])

theorem nameOffset_spec {entries : Entries} {name : List UInt8} {result : ℕ × Entries}
    (hnamed : Named entries) (h : nameOffset entries name = .ok result) :
    Named result.2 ∧ result.1 < 2 ^ 32 ∧ StandsAt result.2.symbols result.1 (name ++ [0]) ∧
      result.2.bytes = entries.bytes ∧ ∃ more, result.2.symbols = entries.symbols ++ more := by
  rw [nameOffset] at h
  cases hlookup : entries.offsets.lookup name with
  | some offset =>
    rw [hlookup] at h
    obtain rfl := Except.ok.inj h
    obtain ⟨l₁, l₂, hsplit, -⟩ := List.lookup_eq_some_iff.mp hlookup
    have hmem : (name, offset) ∈ entries.offsets := by
      rw [hsplit]
      exact List.mem_append_right _ List.mem_cons_self
    obtain ⟨hlt, hat⟩ := hnamed _ hmem
    exact ⟨hnamed, hlt, hat, rfl, [], (List.append_nil _).symm⟩
  | none =>
    rw [hlookup] at h
    dsimp only at h
    split at h
    · exact nomatch h
    · next hlt =>
      obtain rfl := Except.ok.inj h
      have hat : StandsAt (entries.symbols ++ name ++ [0]) entries.symbols.length (name ++ [0]) := by
        have := standsAt_append entries.symbols (name ++ [0]) []
        rw [List.append_nil, ← List.append_assoc] at this
        exact this
      refine ⟨?_, Nat.lt_of_not_le hlt, hat, rfl, name ++ [0], by rw [← List.append_assoc]⟩
      refine List.forall_mem_cons.mpr ⟨⟨Nat.lt_of_not_le hlt, hat⟩, fun x hx => ?_⟩
      obtain ⟨hx, hstands⟩ := hnamed x hx
      exact ⟨hx, (hstands.append name).append [0]⟩

/-- An entry of the table, with its name. -/
def EntryAt (format : ImportsFormat) (imports : List Import) (entries : Entries) (pos : ℕ)
    (key : ℕ × ℤ) : Prop :=
  ∃ m offset bytes, imports[key.1]? = some m ∧ offset < 2 ^ 32 ∧
    StandsAt entries.symbols offset (m.name ++ [0]) ∧
    importEntry format m key.2 offset = .ok bytes ∧ StandsAt entries.bytes pos bytes

/-- **Every entry of the table stands in its place.** -/
theorem importEntries_spec {imports : List Import} (table : List (ℕ × ℤ)) :
    ∀ {entries final : Entries}, Named entries →
      importEntries format imports table entries = .ok final →
      (∃ more, final.symbols = entries.symbols ++ more) ∧
      (∃ more, final.bytes = entries.bytes ++ more) ∧
      final.bytes.length = entries.bytes.length + table.length * entrySize format ∧
      ∀ (k : ℕ) (key : ℕ × ℤ), table[k]? = some key →
        EntryAt format imports final (entries.bytes.length + k * entrySize format) key := by
  induction table with
  | nil =>
    intro entries final _ h
    obtain rfl := Except.ok.inj h
    refine ⟨⟨[], (List.append_nil _).symm⟩, ⟨[], (List.append_nil _).symm⟩, ?_,
      fun k key hk => (nomatch hk)⟩
    rw [List.length_nil, Nat.zero_mul, Nat.add_zero]
  | cons key table ih =>
    intro entries final hnamed h
    rw [importEntries] at h
    obtain ⟨m, hm, h⟩ := bind_eq_ok.mp h
    obtain ⟨⟨offset, named⟩, hname, h⟩ := bind_eq_ok.mp h
    obtain ⟨bytes, hbytes, h⟩ := bind_eq_ok.mp h
    obtain ⟨hnamed', hlt, hat, hsame, more₀, hmore₀⟩ := nameOffset_spec hnamed hname
    have hnamed'' : Named { named with bytes := named.bytes ++ bytes } := hnamed'
    obtain ⟨⟨more, hmore⟩, ⟨rest, hrest⟩, hlength, hentries⟩ := ih hnamed'' h
    dsimp only at hlt hat hsame hmore₀ hbytes hmore hrest hlength hentries
    have hsize := length_importEntry hbytes
    rw [hsame] at hrest hlength hentries
    rw [List.length_append, hsize] at hlength hentries
    refine ⟨⟨more₀ ++ more, ?_⟩, ⟨bytes ++ rest, ?_⟩, ?_, ?_⟩
    · rw [hmore, hmore₀, List.append_assoc]
    · rw [hrest, List.append_assoc]
    · rw [hlength, List.length_cons, Nat.succ_mul]
      omega
    · intro k key' hk
      cases k with
      | zero =>
        obtain rfl := Option.some.inj hk
        refine ⟨m, offset, bytes, okOrElse_eq_ok.mp hm, hlt, ?_, hbytes, ?_⟩
        · rw [hmore]
          exact hat.append more
        · rw [hrest, Nat.zero_mul, Nat.add_zero]
          exact standsAt_append _ _ _
      | succ k =>
        have hentry := hentries k key' hk
        rw [Nat.add_assoc, Nat.add_comm (entrySize format), ← Nat.succ_mul] at hentry
        exact hentry

/-! ### Ordinals -/

/-- What is left of an ordinal in the bits of a format, as the reader sees it. -/
def heldOrdinal (format : ImportsFormat) (ordinal : ℤ) : ℤ :=
  if format = .addend64 then
    if 0xfff0 < ordinal % 2 ^ 16 then ordinal % 2 ^ 16 - 2 ^ 16 else ordinal % 2 ^ 16
  else if 0xf0 < ordinal % 2 ^ 8 then ordinal % 2 ^ 8 - 2 ^ 8
  else ordinal % 2 ^ 8

/-- The ordinals that a format holds. -/
def HoldsOrdinal (format : ImportsFormat) (ordinal : ℤ) : Prop :=
  -15 ≤ ordinal ∧ ordinal ≤ if format = .addend64 then 0xfff0 else 0xf0

/-- **An ordinal survives exactly when the format holds it.** -/
theorem heldOrdinal_eq_iff (format : ImportsFormat) (ordinal : ℤ) :
    heldOrdinal format ordinal = ordinal ↔ HoldsOrdinal format ordinal := by
  rw [heldOrdinal, HoldsOrdinal]
  split
  · split <;> omega
  · split <;> omega

/-- The addend that the table holds for a key. -/
def heldAddend (format : ImportsFormat) (addend : ℤ) : ℤ :=
  if format = .plain then 0 else addend

/-- The addends that a format holds. -/
def HoldsAddend (format : ImportsFormat) (addend : ℤ) : Prop :=
  match format with
  | .plain => True
  | .addend => -2 ^ 31 ≤ addend ∧ addend < 2 ^ 31
  | .addend64 => -2 ^ 63 ≤ addend ∧ addend < 2 ^ 63

variable {word weak index : ℕ} {ordinal : ℤ}

theorem shortEntry (hweak : weak < 2)
    (hword : word = (asU64 ordinal % 2 ^ 32 &&& (2 ^ 8 - 1)) ||| weak <<< 8 ||| offset <<< 9) :
    word &&& (2 ^ 8 - 1) = (ordinal % 2 ^ 8).toNat ∧ word >>> 8 &&& 1 = weak ∧
      word >>> 9 = offset ∧ word = (ordinal % 2 ^ 8).toNat + weak * 2 ^ 8 + offset * 2 ^ 9 := by
  have hlow : asU64 ordinal % 2 ^ 32 &&& (2 ^ 8 - 1) = (ordinal % 2 ^ 8).toNat := by
    rw [Nat.and_two_pow_sub_one_eq_mod, asU64]
    omega
  have hbyte : (ordinal % 2 ^ 8).toNat < 2 ^ 8 := by omega
  rw [hlow] at hword
  generalize (ordinal % 2 ^ 8).toNat = low at *
  rw [or_shiftLeft weak hbyte, or_shiftLeft offset (by omega)] at hword
  rw [Nat.and_two_pow_sub_one_eq_mod, Nat.shiftRight_eq_div_pow, Nat.shiftRight_eq_div_pow,
    Nat.and_one_is_mod]
  omega

theorem longEntry (hweak : weak < 2)
    (hword : word = (asU64 ordinal &&& (2 ^ 16 - 1)) ||| weak <<< 16 ||| offset <<< 32) :
    word &&& (2 ^ 16 - 1) = (ordinal % 2 ^ 16).toNat ∧ word >>> 16 &&& 1 = weak ∧
      word >>> 32 = offset ∧ word = (ordinal % 2 ^ 16).toNat + weak * 2 ^ 16 + offset * 2 ^ 32 := by
  have hlow : asU64 ordinal &&& (2 ^ 16 - 1) = (ordinal % 2 ^ 16).toNat := by
    rw [Nat.and_two_pow_sub_one_eq_mod, asU64]
    omega
  have hbyte : (ordinal % 2 ^ 16).toNat < 2 ^ 16 := by omega
  rw [hlow] at hword
  generalize (ordinal % 2 ^ 16).toNat = low at *
  rw [or_shiftLeft weak hbyte, or_shiftLeft offset (by omega)] at hword
  rw [Nat.and_two_pow_sub_one_eq_mod, Nat.shiftRight_eq_div_pow, Nat.shiftRight_eq_div_pow,
    Nat.and_one_is_mod]
  omega

theorem shortOrdinal (format : ImportsFormat) (hformat : format ≠ .addend64) (ordinal : ℤ) :
    (if 0xf0 < (ordinal % 2 ^ 8).toNat then signed 8 (ordinal % 2 ^ 8).toNat
      else ((ordinal % 2 ^ 8).toNat : ℤ)) = heldOrdinal format ordinal := by
  rw [heldOrdinal, if_neg hformat, signed]
  split
  · rw [if_neg (by omega), if_pos (by omega)]
    omega
  · rw [if_neg (by omega)]
    omega

theorem longOrdinal (ordinal : ℤ) :
    (if 0xfff0 < (ordinal % 2 ^ 16).toNat then signed 16 (ordinal % 2 ^ 16).toNat
      else ((ordinal % 2 ^ 16).toNat : ℤ)) = heldOrdinal .addend64 ordinal := by
  rw [heldOrdinal, if_pos rfl, signed]
  split
  · rw [if_neg (by omega), if_pos (by omega)]
    omega
  · rw [if_neg (by omega)]
    omega

variable {c : ChainedFixups}

/-- **What the reader finds in an entry.** -/
theorem rawImport_spec (hoffset : offset < 2 ^ 32)
    (hsmall : index * entrySize c.header.importsFormat + c.header.importsOffset < 2 ^ 64)
    (haddend : HoldsAddend c.header.importsFormat addend)
    (hbytes : importEntry c.header.importsFormat m addend offset = .ok bytes) (hat : StandsAt c.data
      (index * entrySize c.header.importsFormat + c.header.importsOffset) bytes) :
    rawImport c index = .ok (heldOrdinal c.header.importsFormat m.ordinal, m.weak, offset,
      heldAddend c.header.importsFormat addend) := by
  rw [rawImport]
  dsimp only
  rw [if_neg (Nat.not_le.mpr hsmall)]
  generalize index * entrySize c.header.importsFormat + c.header.importsOffset = pos at *
  have hweak := Bool.toNat_lt m.weak
  have hbool : ∀ b : Bool, decide (b.toNat ≠ 0) = b := by decide
  cases hformat : c.header.importsFormat with
  | addend64 =>
    rw [hformat] at hbytes haddend
    obtain rfl := Except.ok.inj hbytes
    rw [standsAt_leBytes_append_iff] at hat
    generalize hword : (asU64 m.ordinal &&& (2 ^ 16 - 1)) ||| m.weak.toNat <<< 16 |||
      offset <<< 32 = word at hat
    obtain ⟨hlow, hflag, hname, hsum⟩ := longEntry hweak hword.symm
    have hrange : -2 ^ 63 ≤ addend ∧ addend < 2 ^ 63 := haddend
    have haddend : signed 64 (asU64 addend) = addend := by
      rw [signed, asU64]
      split <;> omega
    have hfirst : readLe 8 c.data pos = some word :=
      readLe_of_standsAt hat.1 (by decide) (by omega)
    have hsecond : readLe 8 c.data (pos + 8) = some (asU64 addend) :=
      readLe_of_standsAt hat.2 (by decide) (by rw [asU64]; omega)
    dsimp only
    rw [hfirst, hsecond, okOrElse]
    show Except.ok _ = Except.ok _
    rw [hlow, hflag, hname, hbool, longOrdinal, Option.map_some, haddend]
    rfl
  | plain =>
    rw [hformat, importEntry, if_neg (by decide)] at hbytes
    split at hbytes
    · cases hbytes
    obtain rfl := Except.ok.inj hbytes
    rw [standsAt_leBytes_append_iff] at hat
    generalize hword : (asU64 m.ordinal % 2 ^ 32 &&& (2 ^ 8 - 1)) ||| m.weak.toNat <<< 8 |||
      offset <<< 9 = word at hat
    obtain ⟨hlow, hflag, hname, hsum⟩ := shortEntry hweak hword.symm
    have hfirst : readLe 4 c.data pos = some word :=
      readLe_of_standsAt hat.1 (by decide) (by omega)
    rw [hfirst, okOrElse]
    show Except.ok _ = Except.ok _
    rw [hlow, hflag, hname, hbool, shortOrdinal .plain (by decide)]
    rfl
  | addend =>
    rw [hformat] at haddend
    rw [hformat, importEntry, if_neg (by decide)] at hbytes
    split at hbytes
    · cases hbytes
    obtain rfl := Except.ok.inj hbytes
    rw [standsAt_leBytes_append_iff, if_pos rfl] at hat
    generalize hword : (asU64 m.ordinal % 2 ^ 32 &&& (2 ^ 8 - 1)) ||| m.weak.toNat <<< 8 |||
      offset <<< 9 = word at hat
    obtain ⟨hlow, hflag, hname, hsum⟩ := shortEntry hweak hword.symm
    have hrange : -2 ^ 31 ≤ addend ∧ addend < 2 ^ 31 := haddend
    have haddend : signed 32 (asU64 addend % 2 ^ 32) = addend := by
      rw [signed, asU64]
      split <;> omega
    have hfirst : readLe 4 c.data pos = some word :=
      readLe_of_standsAt hat.1 (by decide) (by omega)
    have hsecond : readLe 4 c.data (pos + 4) = some (asU64 addend % 2 ^ 32) :=
      readLe_of_standsAt hat.2 (by decide) (Nat.mod_lt _ (by decide))
    rw [hfirst, hsecond, okOrElse]
    show Except.ok _ = Except.ok _
    rw [hlow, hflag, hname, hbool, shortOrdinal .addend (by decide), if_pos rfl, Option.map_some, haddend]
    rfl

/-- **What the reader finds of an import.** -/
theorem importAt_spec (hindex : index < c.header.importsCount) (hoffset : offset < 2 ^ 32)
    (hsmall : index * entrySize c.header.importsFormat + c.header.importsOffset < 2 ^ 64)
    (haddend : HoldsAddend c.header.importsFormat addend)
    (hbytes : importEntry c.header.importsFormat m addend offset = .ok bytes) (hat : StandsAt c.data
      (index * entrySize c.header.importsFormat + c.header.importsOffset) bytes)
    (hname : StandsAt c.data (c.header.symbolsOffset + offset) (m.name ++ [0])) :
    c.importAt index = .ok ⟨heldOrdinal c.header.importsFormat m.ordinal, m.weak, m.name,
      heldAddend c.header.importsFormat addend⟩ := by
  have hlen := hname.le_length (by rw [List.length_append]; exact Nat.succ_pos _)
  have hcstr : cstr (c.data.drop (c.header.symbolsOffset + offset)) = some m.name := by
    have htake := hname.take_drop
    rw [← List.take_append_drop (m.name ++ [0]).length
      (c.data.drop (c.header.symbolsOffset + offset)), htake, List.append_assoc]
    exact cstr_append m.terminated _
  rw [ChainedFixups.importAt, if_neg (Nat.not_le.mpr hindex),
    rawImport_spec hoffset hsmall haddend hbytes hat]
  show (okOrElse (if c.header.symbolsOffset + offset ≤ c.data.length then
    cstr (c.data.drop (c.header.symbolsOffset + offset)) else none) _ >>= _) = _
  rw [if_pos (by omega), hcstr]
  rfl

end Qld.Macho
