import Qld.Macho.FixupsCorrect
import Qld.Macho.LayoutSections

/-!
# Layouts

* `Mapped` — sections are apart, aligned and inside their segments, in memory and in the file, and
  the loader finds the contents of every address;
* `InStep` — what the sizes, alignments and types of the sections say: sections with contents stand
  as far from the start of their segment in memory as in the file, in front of zero-fill sections;
* `mapped_iff` — what every segment needs for a layout to be mapped;
* `assignAddresses_mapped` — a layout is mapped just when its sections are in step;
* `assignAddresses_zerofill_first` — a zero-fill section in front of contents.
-/

namespace Qld.Macho

open Qld.Lib

variable {config : Config} {headerSize : ℕ}

/-! ### What is to hold -/

/-- The loader finds every section; empty ones take no room. -/
structure Mapped (placed : List Placed) : Prop where
  apart : (placed.flatMap Prod.snd).Pairwise fun s t => 0 < s.size → 0 < t.size →
    s.addr + s.size ≤ t.addr ∨ t.addr + t.size ≤ s.addr
  inside : ∀ p ∈ placed, ∀ s ∈ p.2, 0 < s.size → s.alignment ∣ s.addr ∧ p.1.vmaddr ≤ s.addr ∧
    s.addr + s.size ≤ p.1.vmaddr + p.1.vmsize
  filesApart : (placed.flatMap Prod.snd).Pairwise fun s t => s.isZerofill = false →
    t.isZerofill = false → 0 < s.size → 0 < t.size →
    s.offset + s.size ≤ t.offset ∨ t.offset + t.size ≤ s.offset
  filesInside : ∀ p ∈ placed, ∀ s ∈ p.2, s.isZerofill = false → 0 < s.size →
    p.1.fileoff ≤ s.offset ∧ s.offset + s.size ≤ p.1.fileoff + p.1.filesize
  mapped : ∀ p ∈ placed, ∀ s ∈ p.2, s.isZerofill = false → ∀ o < s.size,
    fileOffsetOf (placed.map Prod.fst) (s.addr + o) = some (s.offset + o)
  zerofillLast : ∀ p ∈ placed, ∀ z ∈ p.2, ∀ s ∈ p.2, z.isZerofill = true → s.isZerofill = false →
    0 < z.size → 0 < s.size → s.addr + s.size ≤ z.addr

/-! ### What sizes and alignments say -/

/-- The room in front of the sections of a segment. -/
def skipOf (headerSize : ℕ) (name : List UInt8) : ℕ := if name = TEXT then headerSize else 0

/-- The room that a segment takes from `start` on, in whole pages. -/
def spanOf (config : Config) (start skip : ℕ) (sections : List OutSection) : ℕ :=
  alignUp (endOf (start + skip) sections - start) config.pageSize

/-- A segment that starts at `addr` and `file` is in step: zero-fill sections come last, and each
section with contents is as far from the start in memory, behind all sections before it, as in the
file, behind those with contents.  It is not in front of `reach`.  Empty sections need nothing, but
the others start behind them. -/
structure ContentsInStep (reach addr file skip : ℕ) (sections : List OutSection) : Prop where
  ordered : sections.Pairwise fun s t =>
    0 < s.size → 0 < t.size → s.isZerofill = true → t.isZerofill = true
  inPlace : ∀ (i : ℕ) (s : OutSection), sections[i]? = some s → s.isZerofill = false → 0 < s.size →
    reach ≤ positionOf (addr + skip) (sections.take i) s ∧
      positionOf (addr + skip) (sections.take i) s + file =
        positionOf (file + skip) (contentsOf (sections.take i)) s + addr

/-- `__PAGEZERO` has no sections of its own, but an input may name it. -/
structure PagezeroInStep (config : Config) (sections : List OutSection) : Prop where
  single : sections.Pairwise fun s t => s.size = 0 ∨ t.size = 0
  zerofill : ∀ s ∈ sections, 0 < s.size → s.isZerofill = true ∧ s.size ≤ config.pagezero

/-- The segments of a plan are in step, from `addr` and `file` on.  The bytes of the segments before
are at addresses below `reach`. -/
def InStep (config : Config) (headerSize : ℕ) : List Planned → (reach addr file : ℕ) → Prop
  | [], _, _, _ => True
  | segment :: segments, reach, addr, file =>
    if segment.1 = pagezero then
      PagezeroInStep config segment.2 ∧
        InStep config headerSize segments reach (max config.imageBase config.pagezero) file
    else if segment.1 = LINKEDIT then
      (∀ s ∈ segment.2, s.size = 0) ∧ InStep config headerSize segments reach addr file
    else
      let skip := skipOf headerSize segment.1
      let span := spanOf config file skip (contentsOf segment.2)
      ContentsInStep reach addr file skip segment.2 ∧
        InStep config headerSize segments
          (if span = 0 then reach else max reach (saturatingAdd addr span))
          (addr + spanOf config addr skip segment.2) (file + span)

/-! ### One segment -/

/-- A segment with contents, between two cursors. -/
structure ContentsAt (config : Config) (headerSize : ℕ) (c c' : Cursor) (segment : Planned)
    (p : Placed) (stop : Cursor) : Prop where
  same : List.Forall₂ SameSection segment.2 p.2
  follows : Follows ⟨c.addr + skipOf headerSize segment.1, c.file + skipOf headerSize segment.1⟩
    p.2 stop
  typed : Cursor.Typed ⟨c.addr + skipOf headerSize segment.1, c.file + skipOf headerSize segment.1⟩
  vmaddr : p.1.vmaddr = c.addr
  fileoff : p.1.fileoff = c.file
  vmsize : p.1.vmsize = alignUp (stop.addr - c.addr) config.pageSize
  filesize : p.1.filesize =
    if stop.file = c.file then 0 else alignUp (stop.file - c.file) config.pageSize
  nextAddr : c'.addr = c.addr + p.1.vmsize
  nextFile : c'.file = c.file + p.1.filesize
  next : c'.Typed

variable {name : List UInt8} {c c' : Cursor} {segment : Planned} {p : Placed}

theorem skipHeader_spec {first : Cursor} (hc : c.Typed)
    (h : skipHeader headerSize name c = .ok first) :
    first = ⟨c.addr + skipOf headerSize name, c.file + skipOf headerSize name⟩ ∧ first.Typed := by
  rw [skipHeader] at h
  rw [skipOf]
  split at h
  · next hname =>
    obtain ⟨addr, haddr, h⟩ := bind_eq_ok.mp h
    obtain ⟨file, hfile, h⟩ := bind_eq_ok.mp h
    obtain rfl := Except.ok.inj h
    obtain ⟨rfl, hlt⟩ := addOr_eq_ok haddr
    obtain ⟨rfl, hlt'⟩ := addOr_eq_ok hfile
    rw [if_pos hname]
    exact ⟨rfl, hlt, hlt'⟩
  · next hname =>
    rw [if_neg hname]
    obtain rfl := Except.ok.inj h
    exact ⟨rfl, hc⟩

theorem placeContents_spec (hc : c.Typed)
    (h : placeContents config headerSize c segment = .ok (c', p)) :
    ∃ stop, ContentsAt config headerSize c c' segment p stop := by
  obtain ⟨first, hfirst, h⟩ := bind_eq_ok.mp h
  obtain ⟨⟨stop, placed⟩, hplaced, h⟩ := bind_eq_ok.mp h
  obtain ⟨addr, haddr, h⟩ := bind_eq_ok.mp h
  obtain ⟨file, hfile, h⟩ := bind_eq_ok.mp h
  obtain ⟨rfl, rfl⟩ := Prod.mk.inj (Except.ok.inj h)
  obtain ⟨rfl, hlt⟩ := addOr_eq_ok haddr
  obtain ⟨rfl, hlt'⟩ := addOr_eq_ok hfile
  obtain ⟨rfl, htyped⟩ := skipHeader_spec hc hfirst
  obtain ⟨hsame, hfollows⟩ := placeSections_spec _ hplaced
  exact ⟨stop, hsame, hfollows, htyped, rfl, rfl, rfl, rfl, rfl, rfl, hlt, hlt'⟩

theorem le_alignUp_page (config : Config) {value : ℕ} (hvalue : value < 2 ^ 64) :
    value ≤ alignUp value config.pageSize ∧ alignUp value config.pageSize ≤ U64_MAX := by
  rcases config.pageSize_eq with hpage | hpage
  · rw [hpage]
    obtain ⟨hle, hmax, -⟩ := alignUp_spec hvalue (by decide : 12 < 64)
    exact ⟨hle, hmax⟩
  · rw [hpage]
    obtain ⟨hle, hmax, -⟩ := alignUp_spec hvalue (by decide : 14 < 64)
    exact ⟨hle, hmax⟩

/-- A section follows another. -/
def After (s t : OutSection) : Prop :=
  s.addr + s.size ≤ t.addr ∧
    (s.isZerofill = false → t.isZerofill = false → s.offset + s.size ≤ t.offset)

namespace ContentsAt

variable {stop : Cursor}

theorem stops (h : ContentsAt config headerSize c c' segment p stop) :
    stop.addr ≤ c.addr + p.1.vmsize ∧ stop.file ≤ c.file + p.1.filesize := by
  obtain ⟨htyped, haddr, hfile⟩ := Follows.bounds _ h.typed h.follows
  have hvm := (le_alignUp_page config (by have := htyped.1; omega : stop.addr - c.addr < 2 ^ 64)).1
  have hfs := (le_alignUp_page config (by have := htyped.2; omega : stop.file - c.file < 2 ^ 64)).1
  rw [← h.vmsize] at hvm
  have hfilesize := h.filesize
  dsimp only at haddr hfile
  refine ⟨by omega, ?_⟩
  split at hfilesize
  · omega
  · omega

theorem inside (h : ContentsAt config headerSize c c' segment p stop) : ∀ s ∈ p.2,
    p.1.vmaddr ≤ s.addr ∧ s.addr + s.size ≤ p.1.vmaddr + p.1.vmsize ∧
      (0 < s.size → s.alignment ∣ s.addr) ∧
      (s.isZerofill = false → p.1.fileoff ≤ s.offset ∧
        s.offset + s.size ≤ p.1.fileoff + p.1.filesize) := by
  intro s hs
  obtain ⟨haddr, hstop, haligned, hfile⟩ := Follows.mem _ h.typed h.follows s hs
  obtain ⟨hvm, hfs⟩ := h.stops
  dsimp only at haddr hfile
  rw [h.vmaddr, h.fileoff]
  refine ⟨by omega, by omega, haligned, fun hzero => ?_⟩
  obtain ⟨hfirst, hlast⟩ := hfile hzero
  exact ⟨by omega, by omega⟩

theorem follow (h : ContentsAt config headerSize c c' segment p stop) : p.2.Pairwise After :=
  Follows.pairwise _ h.typed h.follows

/-- The pages that a segment takes. -/
theorem spans (h : ContentsAt config headerSize c c' segment p stop) :
    p.1.vmsize = spanOf config c.addr (skipOf headerSize segment.1) segment.2 ∧
      p.1.filesize =
        spanOf config c.file (skipOf headerSize segment.1) (contentsOf segment.2) := by
  have hstop := (Follows.position _ h.follows).1
  rw [endOf_congr h.same, endOf_congr (contentsOf_same h.same)] at hstop
  have hzero : alignUp 0 config.pageSize = 0 := by
    rcases config.pageSize_eq with hpage | hpage
    · rw [hpage]; decide
    · rw [hpage]; decide
  rw [h.vmsize, h.filesize, hstop, spanOf, spanOf]
  refine ⟨rfl, ?_⟩
  split
  · next hsame =>
    dsimp only at hsame
    rw [hsame, Nat.sub_self, hzero]
  · rfl

/-- **Sections are where sizes and alignments put them.** -/
theorem position (h : ContentsAt config headerSize c c' segment p stop) {i : ℕ} {s t : OutSection}
    (hs : segment.2[i]? = some s) (ht : p.2[i]? = some t) :
    SameSection s t ∧
      t.addr = positionOf (c.addr + skipOf headerSize segment.1) (segment.2.take i) s ∧
      (s.isZerofill = false → t.offset =
        positionOf (c.file + skipOf headerSize segment.1) (contentsOf (segment.2.take i)) s) := by
  obtain ⟨s', hs', hsame⟩ := getElem?_of_forall₂ h.same i t ht
  obtain rfl := Option.some.inj (hs.symm.trans hs')
  obtain ⟨haddr, hoffset⟩ := (Follows.position _ h.follows).2 i t ht
  have htake := List.forall₂_take i h.same
  rw [positionOf, endOf_congr htake, hsame.alignment] at haddr
  rw [positionOf, endOf_congr (contentsOf_same htake), hsame.alignment, hsame.isZerofill] at hoffset
  exact ⟨hsame, haddr, hoffset⟩

end ContentsAt

variable {sections : List OutSection}

/-- The order of zero-fill sections, before and after sections have addresses. -/
theorem ordered_iff {placed : List OutSection} (h : List.Forall₂ SameSection sections placed) :
    (placed.Pairwise fun s t => 0 < s.size → 0 < t.size →
        s.isZerofill = true → t.isZerofill = true) ↔
      sections.Pairwise fun s t => 0 < s.size → 0 < t.size →
        s.isZerofill = true → t.isZerofill = true := by
  have hmap : placed.map (fun s => (s.size, s.isZerofill)) =
      sections.map fun s => (s.size, s.isZerofill) := by
    induction h with
    | nil => rfl
    | cons hsame _ ih => rw [List.map_cons, List.map_cons, ih, hsame.size, hsame.isZerofill]
  have hpair : ∀ l : List OutSection, (l.Pairwise fun s t => 0 < s.size → 0 < t.size →
      s.isZerofill = true → t.isZerofill = true) ↔
      (l.map fun s => (s.size, s.isZerofill)).Pairwise fun a b =>
        0 < a.1 → 0 < b.1 → a.2 = true → b.2 = true := by
    intro l
    rw [List.pairwise_map]
  rw [hpair, hpair, hmap]

/-! ### All segments -/

/-- The segments of a layout, one after the other. -/
def Stack (config : Config) (headerSize : ℕ) : List Planned → Cursor → List Placed → Prop
  | [], _, placed => placed = []
  | segment :: segments, c, placed => ∃ c' p rest, placed = p :: rest ∧
      placeSegment config headerSize c segment = .ok (c', p) ∧
      Stack config headerSize segments c' rest

theorem placeSegments_stack (segments : List Planned) : ∀ {c : Cursor} {placed : List Placed},
    placeSegments config headerSize segments c = .ok placed →
    Stack config headerSize segments c placed := by
  induction segments with
  | nil =>
    intro c placed h
    exact (Except.ok.inj h).symm
  | cons segment segments ih =>
    intro c placed h
    obtain ⟨⟨c', p⟩, hfirst, h⟩ := bind_eq_ok.mp h
    obtain ⟨rest, hrest, h⟩ := bind_eq_ok.mp h
    exact ⟨c', p, rest, (Except.ok.inj h).symm, hfirst, ih hrest⟩

/-- A segment behind `__PAGEZERO`: `__LINKEDIT`, or one with contents. -/
theorem placeSegment_cases (hc : c.Typed) (hname : segment.1 ≠ pagezero)
    (h : placeSegment config headerSize c segment = .ok (c', p)) :
    (segment.1 = LINKEDIT ∧ c' = c ∧ p = (⟨segment.1, c.addr, 0, c.file, 0⟩, segment.2)) ∨
      (segment.1 ≠ LINKEDIT ∧ ∃ stop, ContentsAt config headerSize c c' segment p stop) := by
  rw [placeSegment, if_neg hname] at h
  split at h
  · next hlinkedit =>
    obtain ⟨rfl, rfl⟩ := Prod.mk.inj (Except.ok.inj h)
    exact .inl ⟨hlinkedit, rfl, rfl⟩
  · next hlinkedit => exact .inr ⟨hlinkedit, placeContents_spec hc h⟩

/-- Where a segment is. -/
structure Bounded (c : Cursor) (p : Placed) : Prop where
  addr : c.addr ≤ p.1.vmaddr
  file : c.file ≤ p.1.fileoff
  memory : p.1.vmaddr + p.1.vmsize < 2 ^ 64
  contents : p.1.fileoff + p.1.filesize < 2 ^ 64

/-- A segment follows another, in memory and in the file. -/
def Beyond (p q : Placed) : Prop :=
  p.1.vmaddr + p.1.vmsize ≤ q.1.vmaddr ∧ p.1.fileoff + p.1.filesize ≤ q.1.fileoff

/-- **Segments follow one another.** -/
theorem Stack.bounded (segments : List Planned) : ∀ {c : Cursor} {placed : List Placed}, c.Typed →
    (∀ segment ∈ segments, segment.1 ≠ pagezero) → Stack config headerSize segments c placed →
    (∀ p ∈ placed, Bounded c p) ∧ placed.Pairwise Beyond := by
  induction segments with
  | nil =>
    intro c placed _ _ h
    obtain rfl : placed = [] := h
    exact ⟨fun p hp => absurd hp List.not_mem_nil, .nil⟩
  | cons segment segments ih =>
    intro c placed hc hnames h
    obtain ⟨c', p, rest, rfl, hfirst, hrest⟩ := h
    obtain ⟨hname, hnames⟩ := List.forall_mem_cons.mp hnames
    -- the cursor after the segment is at its end
    have hstep : c'.Typed ∧ Bounded c p ∧ c'.addr = p.1.vmaddr + p.1.vmsize ∧
        c'.file = p.1.fileoff + p.1.filesize ∧ c.addr ≤ c'.addr ∧ c.file ≤ c'.file := by
      rcases placeSegment_cases hc hname hfirst with ⟨-, rfl, rfl⟩ | ⟨-, stop, hcontents⟩
      · exact ⟨hc, ⟨le_rfl, le_rfl, hc.1, hc.2⟩, rfl, rfl, le_rfl, le_rfl⟩
      · have haddr := hcontents.nextAddr
        have hfile := hcontents.nextFile
        have hnext := hcontents.next
        have hvm := hcontents.vmaddr
        have hfs := hcontents.fileoff
        have h₁ := hnext.1
        have h₂ := hnext.2
        exact ⟨hnext, ⟨by omega, by omega, by omega, by omega⟩, by omega, by omega, by omega,
          by omega⟩
    obtain ⟨hc', hbounded, haddr, hfile, hle, hle'⟩ := hstep
    obtain ⟨hall, hpair⟩ := ih hc' hnames hrest
    refine ⟨List.forall_mem_cons.mpr ⟨hbounded, fun q hq => ?_⟩,
      List.pairwise_cons.mpr ⟨fun q hq => ?_, hpair⟩⟩
    · have := hall q hq
      exact ⟨le_trans hle this.addr, le_trans hle' this.file, this.memory, this.contents⟩
    · have := hall q hq
      have h₁ := this.addr
      have h₂ := this.file
      exact ⟨by omega, by omega⟩

/-! ### The loader -/

/-- The bytes of no segment before are at or behind an address. -/
def Clear (before : List Placed) (addr : ℕ) : Prop :=
  ∀ q ∈ before, 0 < q.1.filesize → saturatingAdd q.1.vmaddr q.1.filesize ≤ addr

variable {s : OutSection} {before after placed : List Placed}

/-- **When the loader finds the contents of a section.** -/
theorem fileOffsetOf_iff (hpair : (before ++ p :: after).Pairwise Beyond)
    (hcontents : p.1.fileoff + p.1.filesize < 2 ^ 64) (hmemory : p.1.vmaddr + p.1.vmsize < 2 ^ 64)
    (hinside : p.1.vmaddr ≤ s.addr ∧ s.addr + s.size ≤ p.1.vmaddr + p.1.vmsize)
    (hfile : p.1.fileoff ≤ s.offset ∧ s.offset + s.size ≤ p.1.fileoff + p.1.filesize)
    (hsize : 0 < s.size) :
    (∀ o < s.size, fileOffsetOf ((before ++ p :: after).map Prod.fst) (s.addr + o) =
        some (s.offset + o)) ↔
      Clear before s.addr ∧ s.addr + p.1.fileoff = s.offset + p.1.vmaddr := by
  have hmax : U64_MAX + 1 = 2 ^ 64 := rfl
  have hbefore := fun q hq => (List.pairwise_append.mp hpair).2.2 q hq p List.mem_cons_self
  have hafter := (List.pairwise_cons.mp (List.pairwise_append.mp hpair).2.1).1
  constructor
  · intro h
    have hfind := h 0 hsize
    rw [Nat.add_zero, Nat.add_zero, fileOffsetOf, List.map_append, List.find?_append] at hfind
    obtain ⟨segment, hfind, hvalue⟩ := Option.map_eq_some_iff.mp hfind
    cases hfirst : (before.map Prod.fst).find? fun q =>
        0 < q.filesize ∧ q.vmaddr ≤ s.addr ∧ s.addr < saturatingAdd q.vmaddr q.filesize with
    | some segment' =>
      -- an earlier segment gives an earlier offset
      rw [hfirst, Option.some_or, Option.some.injEq] at hfind
      subst hfind
      obtain ⟨q, hq, rfl⟩ := List.mem_map.mp (List.mem_of_find?_eq_some hfirst)
      have hhit := List.find?_some hfirst
      rw [decide_eq_true_eq] at hhit
      have hle := Nat.min_le_left (q.1.vmaddr + q.1.filesize) U64_MAX
      have hle' := Nat.min_le_left (q.1.fileoff + (s.addr - q.1.vmaddr)) U64_MAX
      have := (hbefore q hq).2
      rw [saturatingAdd] at hhit hvalue
      omega
    | none =>
      refine ⟨fun q hq hpos => ?_, ?_⟩
      · have hnot := of_decide_eq_false (Bool.eq_false_iff.mpr
          (List.find?_eq_none.mp hfirst q.1 (List.mem_map_of_mem hq)))
        have := (hbefore q hq).1
        omega
      · rw [hfirst, Option.none_or, List.map_cons, List.find?_cons] at hfind
        split at hfind
        · next hhit =>
          have hhit := of_decide_eq_true hhit
          obtain rfl := Option.some.inj hfind
          have hle := Nat.min_le_left (p.1.vmaddr + p.1.filesize) U64_MAX
          rw [saturatingAdd] at hhit hvalue
          omega
        · -- a later segment does not hold the address
          obtain ⟨q, hq, rfl⟩ := List.mem_map.mp (List.mem_of_find?_eq_some hfind)
          have hhit := List.find?_some hfind
          rw [decide_eq_true_eq] at hhit
          have := (hafter q hq).1
          omega
  · rintro ⟨hclear, hplace⟩ o ho
    have hnone : (before.map Prod.fst).find? (fun q => 0 < q.filesize ∧ q.vmaddr ≤ s.addr + o ∧
        s.addr + o < saturatingAdd q.vmaddr q.filesize) = none := by
      refine List.find?_eq_none.mpr fun segment hsegment => ?_
      obtain ⟨q, hq, rfl⟩ := List.mem_map.mp hsegment
      rw [decide_eq_true_eq]
      rintro ⟨hpos, -, hlt⟩
      have := hclear q hq hpos
      omega
    have hself : decide (0 < p.1.filesize ∧ p.1.vmaddr ≤ s.addr + o ∧
        s.addr + o < saturatingAdd p.1.vmaddr p.1.filesize) = true := by
      rw [saturatingAdd]
      exact decide_eq_true ⟨by omega, by omega, Nat.lt_min.mpr ⟨by omega, by omega⟩⟩
    rw [fileOffsetOf, List.map_append, List.find?_append, hnone, Option.none_or, List.map_cons,
      List.find?_cons, hself, Option.map_some, saturatingAdd_of_le (by omega)]
    congr 1
    omega

/-- What a segment needs behind the segments `before`. -/
structure Good (before : List Placed) (p : Placed) : Prop where
  apart : p.2.Pairwise fun s t => 0 < s.size → 0 < t.size →
    s.addr + s.size ≤ t.addr ∨ t.addr + t.size ≤ s.addr
  inside : ∀ s ∈ p.2, 0 < s.size → s.alignment ∣ s.addr ∧ p.1.vmaddr ≤ s.addr ∧
    s.addr + s.size ≤ p.1.vmaddr + p.1.vmsize
  filesApart : p.2.Pairwise fun s t => s.isZerofill = false → t.isZerofill = false →
    0 < s.size → 0 < t.size → s.offset + s.size ≤ t.offset ∨ t.offset + t.size ≤ s.offset
  filesInside : ∀ s ∈ p.2, s.isZerofill = false → 0 < s.size →
    p.1.fileoff ≤ s.offset ∧ s.offset + s.size ≤ p.1.fileoff + p.1.filesize
  found : ∀ s ∈ p.2, s.isZerofill = false → 0 < s.size →
    Clear before s.addr ∧ s.addr + p.1.fileoff = s.offset + p.1.vmaddr
  zerofillLast : ∀ z ∈ p.2, ∀ s ∈ p.2, z.isZerofill = true → s.isZerofill = false →
    0 < z.size → 0 < s.size → s.addr + s.size ≤ z.addr

/-- **A layout is mapped when each of its segments is good.** -/
theorem mapped_iff (hpair : placed.Pairwise Beyond)
    (hbounds : ∀ p ∈ placed, p.1.vmaddr + p.1.vmsize < 2 ^ 64 ∧
      p.1.fileoff + p.1.filesize < 2 ^ 64) :
    Mapped placed ↔ ∀ before p after, placed = before ++ p :: after → Good before p := by
  constructor
  · rintro h before p after rfl
    have hp : p ∈ before ++ p :: after := List.mem_append_right _ List.mem_cons_self
    refine ⟨(List.pairwise_flatMap.mp h.apart).1 p hp, h.inside p hp,
      (List.pairwise_flatMap.mp h.filesApart).1 p hp, h.filesInside p hp,
      fun s hs hzero hsize => ?_, h.zerofillLast p hp⟩
    exact (fileOffsetOf_iff hpair (hbounds p hp).2 (hbounds p hp).1 (h.inside p hp s hs hsize).2
      (h.filesInside p hp s hs hzero hsize) hsize).mp (h.mapped p hp s hs hzero)
  · intro h
    have hgood : ∀ p ∈ placed, ∃ before, Good before p := by
      intro p hp
      obtain ⟨before, after, rfl⟩ := List.append_of_mem hp
      exact ⟨before, h before p after rfl⟩
    refine ⟨List.pairwise_flatMap.mpr ⟨fun p hp => (hgood p hp).choose_spec.apart,
        hpair.imp_of_mem fun {p q} hp hq hpq s hs t ht hsize hsize' => ?_⟩,
      fun p hp => (hgood p hp).choose_spec.inside,
      List.pairwise_flatMap.mpr ⟨fun p hp => (hgood p hp).choose_spec.filesApart,
        hpair.imp_of_mem fun {p q} hp hq hpq s hs t ht hzero hzero' hsize hsize' => ?_⟩,
      fun p hp => (hgood p hp).choose_spec.filesInside, fun p hp s hs hzero o ho => ?_,
      fun p hp => (hgood p hp).choose_spec.zerofillLast⟩
    · have := (hgood p hp).choose_spec.inside s hs hsize
      have := (hgood q hq).choose_spec.inside t ht hsize'
      have := hpq.1
      omega
    · have := (hgood p hp).choose_spec.filesInside s hs hzero hsize
      have := (hgood q hq).choose_spec.filesInside t ht hzero' hsize'
      have := hpq.2
      omega
    · obtain ⟨before, after, rfl⟩ := List.append_of_mem hp
      have hgood := h before p after rfl
      have hsize := Nat.zero_lt_of_lt ho
      exact (fileOffsetOf_iff hpair (hbounds p hp).2 (hbounds p hp).1
        (hgood.inside s hs hsize).2 (hgood.filesInside s hs hzero hsize) hsize).mpr
        (hgood.found s hs hzero hsize) o ho

/-! ### Good segments -/

theorem eq_or_of_pairwise {α : Type} {R : α → α → Prop} {l : List α} (h : l.Pairwise R) {x y : α}
    (hx : x ∈ l) (hy : y ∈ l) : x = y ∨ R x y ∨ R y x := by
  obtain ⟨i, hi, rfl⟩ := List.getElem_of_mem hx
  obtain ⟨j, hj, rfl⟩ := List.getElem_of_mem hy
  have hall := List.pairwise_iff_getElem.mp h
  rcases Nat.lt_trichotomy i j with hlt | rfl | hlt
  · exact .inr (.inl (hall i j hi hj hlt))
  · exact .inl rfl
  · exact .inr (.inr (hall j i hj hi hlt))

/-- **A segment with contents is good when it is in step.** -/
theorem ContentsAt.good_iff {stop : Cursor} {reach : ℕ}
    (h : ContentsAt config headerSize c c' segment p stop)
    (hreach : ∀ m, reach ≤ m ↔ Clear before m) :
    Good before p ↔
      ContentsInStep reach c.addr c.file (skipOf headerSize segment.1) segment.2 := by
  have hfollow := h.follow
  constructor
  · intro hgood
    refine ⟨(ordered_iff h.same).mp (hfollow.imp_of_mem fun {s t} hs ht hst hsize hsize' hzero => ?_),
      fun i s hs hzero hsize => ?_⟩
    · by_contra hnot
      have := hgood.zerofillLast s hs t ht hzero (Bool.eq_false_iff.mpr hnot) hsize hsize'
      have := hst.1
      omega
    · have hi : i < p.2.length := by
        rw [← h.same.length_eq]
        exact (List.getElem?_eq_some_iff.mp hs).1
      have ht : p.2[i]? = some p.2[i] := List.getElem?_eq_getElem hi
      obtain ⟨hsame, haddr, hoffset⟩ := h.position hs ht
      obtain ⟨hclear, hplace⟩ := hgood.found _ (List.getElem_mem hi)
        (by rw [hsame.isZerofill, hzero]) (by rw [hsame.size]; exact hsize)
      rw [h.vmaddr, h.fileoff, haddr, hoffset hzero] at hplace
      rw [haddr] at hclear
      exact ⟨(hreach _).mpr hclear, hplace⟩
  · intro hstep
    refine ⟨hfollow.imp fun hst _ _ => .inl hst.1, fun s hs hsize => ?_,
      hfollow.imp fun hst hs ht _ _ => .inl (hst.2 hs ht),
      fun s hs hzero _ => (h.inside s hs).2.2.2 hzero, fun t ht hzero hsize => ?_,
      fun z hz s hs hzero hzero' hsize hsize' => ?_⟩
    · obtain ⟨hstart, hstop, haligned, -⟩ := h.inside s hs
      exact ⟨haligned hsize, hstart, hstop⟩
    · obtain ⟨i, hi⟩ := List.getElem?_of_mem ht
      obtain ⟨s, hs, -⟩ := getElem?_of_forall₂ h.same i t hi
      obtain ⟨hsame, haddr, hoffset⟩ := h.position hs hi
      rw [hsame.isZerofill] at hzero
      rw [hsame.size] at hsize
      rw [h.vmaddr, h.fileoff, haddr, hoffset hzero, ← hreach]
      exact hstep.inPlace i s hs hzero hsize
    · have hordered := (ordered_iff h.same).mpr hstep.ordered
      rcases eq_or_of_pairwise (hfollow.and hordered) hz hs with rfl | hafter | hafter
      · exact nomatch hzero.symm.trans hzero'
      · exact nomatch (hafter.2 hsize hsize' hzero).symm.trans hzero'
      · exact hafter.1.1

/-- A segment without room is good when its sections are empty. -/
theorem good_empty_iff {segment : OutSegment} (hsize : segment.vmsize = 0) :
    Good before (segment, sections) ↔ ∀ s ∈ sections, s.size = 0 := by
  constructor
  · intro h s hs
    by_contra hpos
    have := h.inside s hs (Nat.pos_of_ne_zero hpos)
    dsimp only at this
    omega
  · intro h
    have hnot : ∀ s ∈ sections, ¬0 < s.size := fun s hs => Nat.not_lt.mpr (h s hs).le
    exact ⟨List.pairwise_of_forall_mem_list fun s hs t ht hpos => absurd hpos (hnot s hs),
      fun s hs hpos => absurd hpos (hnot s hs),
      List.pairwise_of_forall_mem_list fun s hs t ht _ _ hpos => absurd hpos (hnot s hs),
      fun s hs _ hpos => absurd hpos (hnot s hs), fun s hs _ hpos => absurd hpos (hnot s hs),
      fun z hz s hs _ _ hpos => absurd hpos (hnot z hz)⟩

/-- Sections as the builder makes them have no place yet. -/
def Fresh (s : OutSection) : Prop := s.addr = 0 ∧ s.offset = 0

theorem good_pagezero_iff (name : List UInt8) (hfresh : ∀ s ∈ sections, Fresh s) :
    Good [] (⟨name, 0, config.pagezero, 0, 0⟩, sections) ↔ PagezeroInStep config sections := by
  constructor
  · intro h
    refine ⟨h.apart.imp_of_mem fun {s t} hs ht hst => ?_, fun s hs hsize => ⟨?_, ?_⟩⟩
    · have := (hfresh s hs).1
      have := (hfresh t ht).1
      omega
    · by_contra hnot
      have := h.filesInside s hs (Bool.eq_false_iff.mpr hnot) hsize
      dsimp only at this
      omega
    · have := (h.inside s hs hsize).2
      dsimp only at this
      omega
  · intro h
    have hnot : ∀ s ∈ sections, s.isZerofill = false → ¬0 < s.size := by
      intro s hs hzero hsize
      exact nomatch (h.zerofill s hs hsize).1.symm.trans hzero
    refine ⟨h.single.imp fun {s t} hst hsize hsize' => ?_, fun s hs hsize => ?_,
      h.single.imp fun {s t} hst _ _ hsize hsize' => ?_,
      fun s hs hzero hsize => absurd hsize (hnot s hs hzero),
      fun s hs hzero hsize => absurd hsize (hnot s hs hzero),
      fun z _ s hs _ hzero _ hsize => absurd hsize (hnot s hs hzero)⟩
    · omega
    · have haddr := (hfresh s hs).1
      have hle := (h.zerofill s hs hsize).2
      exact ⟨haddr ▸ Nat.dvd_zero _, Nat.zero_le _, by show s.addr + s.size ≤ 0 + config.pagezero; omega⟩
    · omega

theorem forall_split_cons {α : Type} {P : List α → α → Prop} {x : α} {l : List α} :
    (∀ before y after, x :: l = before ++ y :: after → P before y) ↔
      P [] x ∧ ∀ before y after, l = before ++ y :: after → P (x :: before) y := by
  constructor
  · intro h
    exact ⟨h [] x l rfl, fun before y after hl => h (x :: before) y after (by rw [hl]; rfl)⟩
  · rintro ⟨hx, hl⟩ before y after h
    cases before with
    | nil =>
      obtain ⟨rfl, -⟩ := List.cons.inj h
      exact hx
    | cons z before =>
      obtain ⟨rfl, htail⟩ := List.cons.inj h
      exact hl before y after htail

theorem clear_concat {m : ℕ} : Clear (before ++ [p]) m ↔
    Clear before m ∧ (0 < p.1.filesize → saturatingAdd p.1.vmaddr p.1.filesize ≤ m) := by
  rw [Clear, List.forall_mem_append, List.forall_mem_singleton]
  rfl

/-- **The segments of a layout are good when they are in step.** -/
theorem Stack.good_iff (segments : List Planned) : ∀ {c : Cursor} {before placed : List Placed}
    {reach : ℕ}, c.Typed → (∀ segment ∈ segments, segment.1 ≠ pagezero) →
    Stack config headerSize segments c placed → (∀ m, reach ≤ m ↔ Clear before m) →
    ((∀ front p after, placed = front ++ p :: after → Good (before ++ front) p) ↔
      InStep config headerSize segments reach c.addr c.file) := by
  induction segments with
  | nil =>
    intro c before placed reach _ _ h _
    obtain rfl : placed = [] := h
    exact iff_of_true (fun front p after h => absurd h (by simp)) trivial
  | cons segment segments ih =>
    intro c before placed reach hc hnames h hreach
    obtain ⟨c', p, rest, rfl, hfirst, hrest⟩ := h
    obtain ⟨hname, hnames⟩ := List.forall_mem_cons.mp hnames
    have hassoc : ∀ front, before ++ [p] ++ front = before ++ p :: front := fun front => by simp
    have hrests : ∀ {d : Cursor} {reach' : ℕ}, d.Typed → Stack config headerSize segments d rest →
        (∀ m, reach' ≤ m ↔ Clear (before ++ [p]) m) →
        ((∀ front q after, rest = front ++ q :: after → Good (before ++ p :: front) q) ↔
          InStep config headerSize segments reach' d.addr d.file) := by
      intro d reach' hd hstack hclear
      simpa only [hassoc] using ih hd hnames hstack hclear
    rw [forall_split_cons, InStep, if_neg hname, List.append_nil]
    rcases placeSegment_cases hc hname hfirst with ⟨hlinkedit, rfl, rfl⟩ | ⟨hlinkedit, stop, h⟩
    · rw [if_pos hlinkedit, good_empty_iff rfl, hrests hc hrest fun m => ?_]
      rw [hreach, clear_concat]
      exact ⟨fun h => ⟨h, fun hpos => absurd hpos (Nat.lt_irrefl 0)⟩, fun h => h.1⟩
    · obtain ⟨hvm, hfile⟩ := h.spans
      rw [if_neg hlinkedit, h.good_iff hreach]
      dsimp only
      rw [← hvm, ← hfile, ← h.nextAddr, ← h.nextFile, hrests h.next hrest fun m => ?_]
      rw [clear_concat, ← hreach, h.vmaddr]
      split
      · omega
      · omega

/-! ### `__PAGEZERO` -/

/-- What follows from a plan that starts with `__PAGEZERO`. -/
theorem pagezero_cases (hname : segment.1 = pagezero)
    (hstack : Stack config headerSize (segment :: segments) ⟨0, 0⟩ placed) :
    ∃ rest, placed = (⟨segment.1, 0, config.pagezero, 0, 0⟩, segment.2) :: rest ∧
      Stack config headerSize segments ⟨max config.imageBase config.pagezero, 0⟩ rest := by
  obtain ⟨c', p, rest, rfl, hfirst, hrest⟩ := hstack
  rw [placeSegment, if_pos hname] at hfirst
  obtain ⟨rfl, rfl⟩ := Prod.mk.inj (Except.ok.inj hfirst)
  exact ⟨rest, rfl, hrest⟩

theorem max_base_typed (config : Config) : Cursor.Typed ⟨max config.imageBase config.pagezero, 0⟩ :=
  ⟨Nat.max_lt.mpr ⟨config.imageBase_lt, config.pagezero_lt⟩, Nat.two_pow_pos 64⟩

variable {rest : List Placed}

/-- The segment of `__PAGEZERO` is in front of all others. -/
theorem pagezero_beyond (name : List UInt8) (sections : List OutSection)
    (hnames : ∀ segment ∈ segments, segment.1 ≠ pagezero)
    (hrest : Stack config headerSize segments ⟨max config.imageBase config.pagezero, 0⟩ rest) :
    ((⟨name, 0, config.pagezero, 0, 0⟩, sections) :: rest : List Placed).Pairwise Beyond ∧
      ∀ p ∈ ((⟨name, 0, config.pagezero, 0, 0⟩, sections) :: rest : List Placed),
        p.1.vmaddr + p.1.vmsize < 2 ^ 64 ∧ p.1.fileoff + p.1.filesize < 2 ^ 64 := by
  obtain ⟨hbounded, hpair⟩ := Stack.bounded segments (max_base_typed config) hnames hrest
  refine ⟨List.pairwise_cons.mpr ⟨fun q hq => ?_, hpair⟩, List.forall_mem_cons.mpr
    ⟨⟨by rw [Nat.zero_add]; exact config.pagezero_lt, Nat.two_pow_pos 64⟩,
      fun p hp => ⟨(hbounded p hp).memory, (hbounded p hp).contents⟩⟩⟩
  have haddr := (hbounded q hq).addr
  dsimp only at haddr
  refine ⟨?_, Nat.zero_le _⟩
  show 0 + config.pagezero ≤ q.1.vmaddr
  omega

/-! ### Plans -/

theorem segmentOrder_pagezero (h : segmentOrder name ≤ segmentOrder pagezero) :
    name = pagezero := by
  by_contra hne
  rw [segmentOrder, segmentOrder, if_neg hne, if_pos rfl, I64_MAX] at h
  split at h
  · omega
  split at h
  · omega
  split at h
  · omega
  split at h
  · omega
  split at h
  · omega
  · omega

theorem nodup_addName {names : List (List UInt8)} (s : OutSection) (h : names.Nodup) :
    (addName names s).Nodup := by
  rw [addName]
  split
  · exact h
  · next hnew =>
    refine List.Nodup.append h (List.nodup_singleton _) ?_
    rw [List.disjoint_singleton]
    exact hnew

/-- `__PAGEZERO` is the first segment, or there is none. -/
theorem segmentNames_tail (config : Config) (sections : List OutSection) :
    pagezero ∉ (segmentNames config sections).tail := by
  rw [segmentNames]
  generalize hfixed : (if 0 < config.pagezero then [pagezero] else []) ++ [TEXT] = fixed
  have hnodup : (sections.foldl addName fixed).Nodup := by
    have hstart : fixed.Nodup := by
      rw [← hfixed]
      split <;> decide
    clear hfixed
    induction sections generalizing fixed with
    | nil => exact hstart
    | cons s sections ih => exact ih _ (nodup_addName s hstart)
  have hcount : (sections.foldl addName fixed ++ [LINKEDIT]).count pagezero ≤ 1 := by
    rw [List.count_append, show [LINKEDIT].count pagezero = 0 by decide]
    exact List.nodup_iff_count_le_one.mp hnodup _
  generalize sections.foldl addName fixed ++ [LINKEDIT] = names at hcount
  have hperm := List.mergeSort_perm names fun a b => decide (segmentOrder a ≤ segmentOrder b)
  have hsorted : (names.mergeSort fun a b => decide (segmentOrder a ≤ segmentOrder b)).Pairwise
      fun a b => segmentOrder a ≤ segmentOrder b := by
    refine (List.pairwise_mergeSort (fun a b c hab hbc => ?_) (fun a b => ?_) names).imp
      fun {a b} hab => of_decide_eq_true hab
    · exact decide_eq_true (le_trans (of_decide_eq_true hab) (of_decide_eq_true hbc))
    · rw [Bool.or_eq_true, decide_eq_true_eq, decide_eq_true_eq]
      exact le_total _ _
  rw [← hperm.count_eq] at hcount
  intro hmem
  cases hcases : names.mergeSort fun a b => decide (segmentOrder a ≤ segmentOrder b) with
  | nil =>
    rw [hcases] at hmem
    exact absurd hmem List.not_mem_nil
  | cons first others =>
    rw [hcases] at hmem hsorted hcount
    rw [segmentOrder_pagezero ((List.pairwise_cons.mp hsorted).1 _ hmem), List.count_cons_self]
      at hcount
    have := List.count_pos_iff.mpr hmem
    rw [List.tail_cons] at this
    omega

theorem mem_planSegments (h : segment ∈ planSegments config sections) :
    ∀ s ∈ segment.2, s ∈ sections := by
  obtain ⟨x, -, rfl⟩ := List.mem_map.mp h
  intro s hs
  exact List.mem_mergeSort.mp (List.mem_filter.mp hs).1

theorem planSegments_tail (config : Config) (sections : List OutSection) :
    ∀ segment ∈ (planSegments config sections).tail, segment.1 ≠ pagezero := by
  intro segment hsegment hname
  refine segmentNames_tail config sections ?_
  have hnames : (planSegments config sections).map Prod.fst = segmentNames config sections := by
    rw [planSegments, List.map_map]
    exact List.zipIdx_map_fst 0 _
  rw [← hnames, ← List.map_tail, ← hname]
  exact List.mem_map_of_mem hsegment

/-! ### The result -/

/-- **Just the layouts in step are mapped (proved).** -/
theorem assignAddresses_mapped {sections : List OutSection} {placed : List Placed}
    (hfresh : ∀ s ∈ sections, Fresh s)
    (h : assignAddresses config headerSize sections = .ok placed) :
    Mapped placed ↔ InStep config headerSize (planSegments config sections) 0 0 0 := by
  have hstack := placeSegments_stack _ h
  have htail := planSegments_tail config sections
  have hfreshs : ∀ segment ∈ planSegments config sections, ∀ s ∈ segment.2, Fresh s :=
    fun segment hsegment s hs => hfresh s (mem_planSegments hsegment s hs)
  have hclear : ∀ m, 0 ≤ m ↔ Clear [] m := fun m =>
    iff_of_true (Nat.zero_le m) fun q hq => absurd hq List.not_mem_nil
  have hzero : Cursor.Typed ⟨0, 0⟩ := ⟨Nat.two_pow_pos 64, Nat.two_pow_pos 64⟩
  generalize planSegments config sections = segments at hstack htail hfreshs
  by_cases hfirst : ∃ segment rest, segments = segment :: rest ∧ segment.1 = pagezero
  · obtain ⟨segment, segments, rfl, hname⟩ := hfirst
    obtain ⟨rest, rfl, hrest⟩ := pagezero_cases hname hstack
    obtain ⟨hpair, hbounds⟩ := pagezero_beyond segment.1 segment.2 htail hrest
    rw [mapped_iff hpair hbounds, forall_split_cons, InStep, if_pos hname,
      good_pagezero_iff segment.1 (hfreshs segment List.mem_cons_self)]
    refine and_congr_right fun _ => ?_
    refine @Stack.good_iff _ _ segments _ [_] _ _ (max_base_typed config) htail hrest fun m => ?_
    rw [← List.nil_append [_], clear_concat, ← hclear]
    exact ⟨fun h => ⟨h, fun hpos => absurd hpos (Nat.lt_irrefl 0)⟩, fun h => h.1⟩
  · have hnames : ∀ segment ∈ segments, segment.1 ≠ pagezero := by
      cases segments with
      | nil => exact fun segment hs => absurd hs List.not_mem_nil
      | cons segment rest =>
        exact List.forall_mem_cons.mpr ⟨fun hname => hfirst ⟨segment, rest, rfl, hname⟩, htail⟩
    obtain ⟨hbounded, hpair⟩ := Stack.bounded _ hzero hnames hstack
    rw [mapped_iff hpair fun p hp => ⟨(hbounded p hp).memory, (hbounded p hp).contents⟩]
    exact @Stack.good_iff _ _ segments _ [] _ _ hzero hnames hstack hclear

/-! ### Samples -/

/-- A dynamic library. -/
def dylib : Config := ⟨2 ^ 14, 0, 0, .inr rfl, by decide, by decide⟩

/-- Four bytes of code. -/
def sampleText : OutSection := ⟨TEXT, ascii "__text", 0x80000400, 2, 4, 0, 0, 0⟩

/-- Eight bytes of a segment of its own, with contents. -/
def sampleData (order : ℕ) : OutSection := ⟨ascii "__FOO", ascii "__data", 0, 3, 8, order, 0, 0⟩

/-- Eight bytes there, without contents. -/
def sampleZerofill (order : ℕ) : OutSection :=
  ⟨ascii "__FOO", ascii "__bss", S_ZEROFILL, 3, 8, order, 0, 0⟩

theorem sample_names (s t : OutSection) (hs : s.segname = ascii "__FOO")
    (ht : t.segname = ascii "__FOO") :
    segmentNames dylib [sampleText, s, t] = [TEXT, ascii "__FOO", LINKEDIT] := by
  rw [segmentNames, List.foldl_cons, List.foldl_cons, List.foldl_cons, List.foldl_nil]
  rw [addName, addName, hs, ht]
  exact List.mergeSort_of_pairwise (by decide)

/-- An empty section there. -/
def sampleEmpty (order : ℕ) : OutSection := { sampleZerofill order with size := 0 }

theorem sample_plan : planSegments dylib [sampleText, sampleEmpty 1, sampleData 2] =
    [(TEXT, [sampleText]), (ascii "__FOO", [sampleEmpty 1, sampleData 2]), (LINKEDIT, [])] := by
  rw [planSegments, sample_names _ _ rfl rfl, List.mergeSort_of_pairwise (by decide)]
  decide

theorem sample_plan_zerofill : planSegments dylib [sampleText, sampleZerofill 1, sampleData 2] =
    [(TEXT, [sampleText]), (ascii "__FOO", [sampleZerofill 1, sampleData 2]), (LINKEDIT, [])] := by
  rw [planSegments, sample_names _ _ rfl rfl, List.mergeSort_of_pairwise (by decide)]
  decide

theorem sample_fresh (s t : OutSection) (hs : Fresh s) (ht : Fresh t) :
    ∀ u ∈ [sampleText, s, t], Fresh u := by
  refine List.forall_mem_cons.mpr ⟨⟨rfl, rfl⟩, List.forall_mem_cons.mpr ⟨hs, fun u hu => ?_⟩⟩
  rw [List.mem_singleton.mp hu]
  exact ht

/-- Contents behind an empty zero-fill section are mapped. -/
theorem assignAddresses_mapped_sample : ∃ placed,
    assignAddresses dylib 32 [sampleText, sampleEmpty 1, sampleData 2] = .ok placed ∧
      Mapped placed := by
  have hok : (assignAddresses dylib 32 [sampleText, sampleEmpty 1, sampleData 2]).isOk = true := by
    rw [assignAddresses, sample_plan]
    decide +kernel
  obtain ⟨placed, h⟩ := exists_ok_of_isOk hok
  refine ⟨placed, h, (assignAddresses_mapped (sample_fresh _ _ ⟨rfl, rfl⟩ ⟨rfl, rfl⟩) h).mpr ?_⟩
  rw [sample_plan]
  refine ⟨⟨List.pairwise_singleton _ _, fun i s hs _ _ => ?_⟩,
    ⟨List.pairwise_pair.mpr fun hsize => absurd hsize (by decide), fun i s hs hzero _ => ?_⟩,
    fun s hs => absurd hs List.not_mem_nil, trivial⟩
  · match i with
    | 0 =>
      obtain rfl := Option.some.inj hs
      decide +kernel
  · match i with
    | 0 =>
      obtain rfl := Option.some.inj hs
      exact absurd hzero (by decide)
    | 1 =>
      obtain rfl := Option.some.inj hs
      decide +kernel

/-- **Zero-fill in front of contents is not mapped.**  The loader reads the contents of the
second section at the address of the first. -/
theorem assignAddresses_zerofill_first :
    (∀ s ∈ [sampleText, sampleZerofill 1, sampleData 2], Fresh s) ∧ ∃ placed,
      assignAddresses dylib 32 [sampleText, sampleZerofill 1, sampleData 2] = .ok placed ∧
        ¬ Mapped placed := by
  refine ⟨sample_fresh _ _ ⟨rfl, rfl⟩ ⟨rfl, rfl⟩,
    [(⟨TEXT, 0, 2 ^ 14, 0, 2 ^ 14⟩, [{ sampleText with addr := 32, offset := 32 }]),
      (⟨ascii "__FOO", 2 ^ 14, 2 ^ 14, 2 ^ 14, 2 ^ 14⟩,
        [{ sampleZerofill 1 with addr := 2 ^ 14, offset := 0 },
          { sampleData 2 with addr := 2 ^ 14 + 8, offset := 2 ^ 14 }]),
      (⟨LINKEDIT, 2 ^ 15, 0, 2 ^ 15, 0⟩, [])], ?_, fun hmapped => ?_⟩
  · rw [assignAddresses, sample_plan_zerofill]
    decide +kernel
  · have hfound := hmapped.mapped _ (List.mem_cons_of_mem _ List.mem_cons_self)
      { sampleData 2 with addr := 2 ^ 14 + 8, offset := 2 ^ 14 }
      (List.mem_cons_of_mem _ List.mem_cons_self) (by decide) 0 (by decide)
    exact absurd hfound (by decide +kernel)

end Qld.Macho
