import Mathlib
import Qld.Elf.AddressesCorrect
import Qld.Lib.NextMultiple

/-!
# When the thread-local storage template is well formed

The model of what `layout_once` of `elf/layout.rs` does for thread-local sections around its
address loop, and of the thread pointer.

* `alignTlsStart` — the first thread-local section gets the alignment of them all;
* `layoutOnce` — that, and then addresses and file offsets;
* `tlsSegment` — the `PT_TLS` program header;
* `Tls.tp` — the address of the thread pointer, for each architecture.

Thread-local sections without file bytes take no addresses: the location counter stays where it is,
and the end of the template is that of the thread-local section placed last.

* `TemplateOk` — a `PT_TLS` that starts aligned, covers its sections and keeps them apart;
* `spread`, `RangesOk` — where sizes and alignments alone put the sections, and when such ranges
  make a template;
* `placeAll_tls`, `placeAll_spread` — what the address loop does with the sections;
* `tlsTemplate_ok` — the template is well formed when no thread-local section follows one without
  file bytes, and where they stand together exactly when their ranges by size and alignment make one;
* `tlsTemplate_twoTbss` — two sections without file bytes do not.
-/

namespace Qld.Elf.Layout

open Qld.Lib

def PT_TLS : ℕ := 7

/-- Whether the section is thread-local. -/
def OutSection.isTls (s : OutSection) : Bool := s.flags &&& SHF_TLS ≠ 0

/-- The allocated thread-local sections, in section header order. -/
def tlsSections (sections : List OutSection) : List OutSection :=
  sections.filter fun s => s.isAlloc && s.isTls

theorem tlsSections_cons_of_tls {s : OutSection} (halloc : s.isAlloc = true) (hs : s.isTls = true)
    (sections : List OutSection) : tlsSections (s :: sections) = s :: tlsSections sections :=
  List.filter_cons_of_pos (Bool.and_eq_true_iff.mpr ⟨halloc, hs⟩)

theorem tlsSections_cons_of_not {s : OutSection} (hs : (s.isAlloc && s.isTls) = false)
    (sections : List OutSection) : tlsSections (s :: sections) = tlsSections sections :=
  List.filter_cons_of_neg (by rw [hs]; decide)

/-! ### Alignment -/

/-- Raises the alignment of the first thread-local section. -/
def alignFirst (align : ℕ) : List OutSection → List OutSection
  | [] => []
  | s :: sections =>
    if s.isAlloc && s.isTls then { s with align := max s.align align } :: sections
    else s :: alignFirst align sections

/-- Gives the first thread-local section the alignment of the whole segment. -/
def alignTlsStart (sections : List OutSection) : List OutSection :=
  alignFirst (((tlsSections sections).map OutSection.align).max?.getD 1) sections

/-- Whether there is a thread-local section. -/
def hasTls (sections : List OutSection) : Bool :=
  sections.any fun s => s.isAlloc && s.isTls

/-- The sections, ready for the address loop. -/
def alignedSections (sections : List OutSection) : List OutSection :=
  if hasTls sections then alignTlsStart sections else sections

/-- Addresses and file offsets of the sections. -/
def layoutOnce (o : Options) (sections : List OutSection) : Except String Image :=
  assignAddresses o (alignedSections sections)

/-! ### The program header -/

/-- The `PT_TLS` program header. -/
def tlsSegment (image : Image) : Option Segment :=
  image.tls.map fun t =>
    let sections := tlsSections image.sections
    let ends := (sections.filter OutSection.hasFileBytes).map fun s =>
      saturatingAdd s.addr s.size - t.start
    { pType := PT_TLS
      flags := PF_R
      offset := sections.head?.elim 0 OutSection.offset
      vaddr := t.start
      paddr := none
      filesz := ends.max?.getD 0
      memsz := t.memsz
      align := t.align }

/-! ### The thread pointer -/

/-- The architectures of ELF outputs. -/
inductive Arch where
  | x86_64
  | aarch64
  | riscV64
  | loongArch64
  | ppc64
  | ppc64Be
  | s390x
  | i386
  | arm
  | riscV32
  | x32
  | m68k
  deriving DecidableEq, Repr

namespace Arch

/-- Whether the thread pointer is below the block (variant I). -/
def tlsVariant1 : Arch → Bool
  | aarch64 | riscV64 | riscV32 | loongArch64 | ppc64 | ppc64Be | arm => true
  | _ => false

/-- The size of the thread control block that variant I reserves below the block. -/
def tcbSize : Arch → ℕ
  | aarch64 => 16
  | arm => 8
  | _ => 0

/-- Where the thread pointer is relative to the start of the block, when the ABI fixes it. -/
def tpPastTlsStart : Arch → Option ℕ
  | ppc64 | ppc64Be => some 0x7000
  | _ => none

end Arch

/-- `value`, rounded up to a multiple of `align`, or unchanged at the end of the address space. -/
def roundUp (value align : ℕ) : ℕ :=
  (checkedAdd value (wrappingSub align 1)).elim value fun v => v &&& not64 (wrappingSub align 1)

/-- The address of the thread pointer, for local-exec offsets. -/
def Tls.tp (t : Tls) (arch : Arch) : ℕ :=
  match arch.tpPastTlsStart with
  | some offset => wrappingAdd t.start offset
  | none =>
    let align := max t.align 1
    if arch.tlsVariant1 then wrappingSub t.start (roundUp arch.tcbSize align)
    else wrappingAdd t.start (roundUp t.memsz align)

/-- The offset of an address from the thread pointer, as a word. -/
def Tls.tpOffset (t : Tls) (arch : Arch) (address : ℕ) : ℕ := wrappingSub address (t.tp arch)

variable {o : Options}

/-! ### The template -/

/-- The addresses of a section. -/
def OutSection.range (s : OutSection) : Set ℕ := Set.Ico s.addr (s.addr + s.size)

/-- The thread-local storage template `t`, described by `p`, is well formed: it starts aligned,
covers its sections, and no two thread-local variables share an offset. -/
structure TemplateOk (image : Image) (t : Tls) (p : Segment) : Prop where
  aligned : p.align ∣ p.vaddr
  covered : ∀ s ∈ tlsSections image.sections,
    s.range ⊆ Set.Ico p.vaddr (p.vaddr + p.memsz)
  apart : (tlsSections image.sections).Pairwise fun a b => Disjoint a.range b.range
  sizes : p.filesz ≤ p.memsz
  offsets : ∀ arch, (tlsSections image.sections).Pairwise fun a b =>
    ∀ x ∈ a.range, ∀ y ∈ b.range, t.tpOffset arch x ≠ t.tpOffset arch y

/-- Whatever template the image has is well formed. -/
def TlsOk (image : Image) : Prop :=
  ∀ t p, image.tls = some t → tlsSegment image = some p → TemplateOk image t p

/-! ### Ranges by size and alignment -/

/-- A range of addresses, and whether it has file bytes. -/
structure Extent where
  addr : ℕ
  size : ℕ
  inFile : Bool
  deriving DecidableEq, Repr

def Extent.stop (e : Extent) : ℕ := e.addr + e.size

def OutSection.extent (s : OutSection) : Extent := ⟨s.addr, s.size, s.hasFileBytes⟩

/-- Where sections that stand together are placed from position `x` on: each at a multiple of its
alignment, behind the last one that has file bytes. -/
def spread : ℕ → List OutSection → List Extent
  | _, [] => []
  | x, s :: sections =>
    let addr := nextMultiple x (max s.align 1)
    ⟨addr, s.size, s.hasFileBytes⟩ :: spread (if s.isTbss then x else addr + s.size) sections

def startOf (l : List Extent) : ℕ := l.head?.elim 0 Extent.addr

/-- From the start of the first range to the end of the last one. -/
def memSize (l : List Extent) : ℕ := l.getLast?.elim 0 Extent.stop - startOf l

/-- The ranges make a template that ends with the last of them: none of them is outside, no two
overlap, and file bytes end inside. -/
structure RangesOk (l : List Extent) : Prop where
  covered : ∀ e ∈ l, 0 < e.size → startOf l ≤ e.addr ∧ e.stop ≤ startOf l + memSize l
  apart : l.Pairwise fun a b => a.size = 0 ∨ b.size = 0 ∨ a.stop ≤ b.addr ∨ b.stop ≤ a.addr
  files : ∀ e ∈ l, e.inFile = true → e.stop - startOf l ≤ memSize l

instance (l : List Extent) : Decidable (RangesOk l) :=
  decidable_of_iff ((∀ e ∈ l, 0 < e.size → startOf l ≤ e.addr ∧ e.stop ≤ startOf l + memSize l) ∧
    (l.Pairwise fun a b => a.size = 0 ∨ b.size = 0 ∨ a.stop ≤ b.addr ∨ b.stop ≤ a.addr) ∧
    ∀ e ∈ l, e.inFile = true → e.stop - startOf l ≤ memSize l)
    ⟨fun h => ⟨h.1, h.2.1, h.2.2⟩, fun h => ⟨h.covered, h.apart, h.files⟩⟩

def Extent.shift (k : ℕ) (e : Extent) : Extent := { e with addr := k + e.addr }

theorem rangesOk_shift (k : ℕ) (l : List Extent) :
    RangesOk (l.map (Extent.shift k)) ↔ RangesOk l := by
  cases l with
  | nil => exact Iff.rfl
  | cons first rest =>
    obtain ⟨last, hlast⟩ : ∃ last, (first :: rest).getLast? = some last :=
      ⟨_, List.getLast?_eq_some_getLast (List.cons_ne_nil _ _)⟩
    have hstart : startOf ((first :: rest).map (Extent.shift k)) =
        k + startOf (first :: rest) := rfl
    have hsize : memSize ((first :: rest).map (Extent.shift k)) = memSize (first :: rest) := by
      rw [memSize, memSize, hstart, List.getLast?_map, hlast]
      simp only [Option.map_some, Option.elim_some, Extent.stop, Extent.shift]
      omega
    refine ⟨fun h => ⟨fun e he hpos => ?_, ?_, fun e he hfile => ?_⟩,
      fun h => ⟨fun e he hpos => ?_, ?_, fun e he hfile => ?_⟩⟩
    · have := h.covered _ (List.mem_map_of_mem he) hpos
      rw [hstart, hsize] at this
      simp only [Extent.stop, Extent.shift] at this ⊢
      omega
    · have hapart := List.pairwise_map.mp h.apart
      refine hapart.imp fun {a b} hab => ?_
      simp only [Extent.stop, Extent.shift] at hab ⊢
      omega
    · have := h.files _ (List.mem_map_of_mem he) hfile
      rw [hstart, hsize] at this
      simp only [Extent.stop, Extent.shift] at this ⊢
      omega
    · obtain ⟨d, hd, rfl⟩ := List.mem_map.mp he
      have := h.covered d hd hpos
      rw [hstart, hsize]
      simp only [Extent.stop, Extent.shift] at this ⊢
      omega
    · refine List.pairwise_map.mpr (h.apart.imp fun {a b} hab => ?_)
      simp only [Extent.stop, Extent.shift] at hab ⊢
      omega
    · obtain ⟨d, hd, rfl⟩ := List.mem_map.mp he
      have := h.files d hd hfile
      rw [hstart, hsize]
      simp only [Extent.stop, Extent.shift] at this ⊢
      omega

theorem rangesOk_of_pairwise {l : List Extent} (h : l.Pairwise fun a b => a.stop ≤ b.addr) :
    RangesOk l := by
  cases l with
  | nil => exact ⟨nofun, .nil, nofun⟩
  | cons first rest =>
    obtain ⟨front, last, hl⟩ : ∃ front last, first :: rest = front ++ [last] :=
      ⟨_, _, (List.dropLast_append_getLast (List.cons_ne_nil first rest)).symm⟩
    have hstop : ∀ e ∈ first :: rest, e.stop ≤ last.stop := by
      intro e he
      rw [hl] at he h
      rcases List.mem_append.mp he with he | he
      · exact ((List.pairwise_append.mp h).2.2 e he last (List.mem_singleton_self _)).trans
          (Nat.le_add_right _ _)
      · rw [List.mem_singleton.mp he]
    have hstart : ∀ e ∈ first :: rest, first.addr ≤ e.addr := by
      intro e he
      rcases List.mem_cons.mp he with rfl | he
      · exact le_rfl
      · exact (Nat.le_add_right _ _).trans ((List.pairwise_cons.mp h).1 e he)
    have hmem : memSize (first :: rest) = last.stop - first.addr := by
      rw [memSize, hl, List.getLast?_concat, ← hl]
      rfl
    have hfirst : startOf (first :: rest) = first.addr := rfl
    refine ⟨fun e he _ => ?_, h.imp fun {a b} hab => .inr (.inr (.inl hab)), fun e he _ => ?_⟩
    all_goals
      have hle := hstop e he
      have hlow := hstart e he
      rw [hmem, hfirst]
      simp only [Extent.stop] at hle ⊢
      omega

theorem max_one_pos (align : ℕ) : 0 < max align 1 := Nat.lt_of_lt_of_le Nat.one_pos (le_max_right _ _)

/-- Sections are spread alike from positions that differ by a multiple of all alignments. -/
theorem spread_add {k : ℕ} {sections : List OutSection}
    (h : ∀ s ∈ sections, max s.align 1 ∣ k) (x : ℕ) :
    spread (k + x) sections = (spread x sections).map (Extent.shift k) := by
  induction sections generalizing x with
  | nil => rfl
  | cons s sections ih =>
    have hs := h s List.mem_cons_self
    have hrest := ih fun s hs => h s (List.mem_cons_of_mem _ hs)
    rw [spread, spread, List.map_cons, nextMultiple_add x (max_one_pos _) hs]
    congr 1
    split
    · exact hrest x
    · rw [Nat.add_assoc]
      exact hrest _

/-- Behind a start that all alignments divide, either a range begins at it or before it, or all end
there. -/
theorem spread_behind {start : ℕ} {sections : List OutSection}
    (h : ∀ s ∈ sections, max s.align 1 ∣ start) {x : ℕ} (hx : x ≤ start) :
    (∃ e ∈ spread x sections, 0 < e.size ∧ e.addr ≤ start) ∨
      ∀ e ∈ spread x sections, e.stop ≤ start := by
  induction sections generalizing x with
  | nil => exact .inr nofun
  | cons s sections ih =>
    have haddr : nextMultiple x (max s.align 1) ≤ start :=
      nextMultiple_le (max_one_pos _) hx (h s List.mem_cons_self)
    rw [spread]
    rcases Nat.eq_zero_or_pos s.size with hsize | hsize
    · have hnext : (if s.isTbss then x else nextMultiple x (max s.align 1) + s.size) ≤ start := by
        split
        · exact hx
        · omega
      rcases ih (fun s hs => h s (List.mem_cons_of_mem _ hs)) hnext with ⟨e, he, hpos⟩ | hall
      · exact .inl ⟨e, List.mem_cons_of_mem _ he, hpos⟩
      · refine .inr (List.forall_mem_cons.mpr ⟨?_, hall⟩)
        rw [Extent.stop, hsize]
        exact haddr
    · exact .inl ⟨_, List.mem_cons_self, hsize, haddr⟩

/-- **Where the sections are spread from does not matter.**  The first one has the largest
alignment; where it has no file bytes, the others start before its end. -/
theorem rangesOk_spread {sections : List OutSection} (x : ℕ)
    (hdvd : ∀ s ∈ sections, ∀ first ∈ sections.head?, max s.align 1 ∣ max first.align 1)
    (hfirst : ∀ first rest, sections = first :: rest → rest ≠ [] → first.isTbss = true →
      0 < first.size) :
    RangesOk (spread x sections) ↔ RangesOk (spread 0 sections) := by
  cases sections with
  | nil => exact Iff.rfl
  | cons s rest =>
    have hdvd : ∀ t ∈ s :: rest, max t.align 1 ∣ max s.align 1 := fun t ht => hdvd t ht s rfl
    by_cases htwo : rest ≠ [] ∧ s.isTbss = true
    · have hnot : ∀ x, ¬RangesOk (spread x (s :: rest)) := by
        intro x h
        rw [spread, if_pos htwo.2] at h
        have hpos := hfirst s rest rfl htwo.1 htwo.2
        generalize hstart : nextMultiple x (max s.align 1) = start at h
        have hle : x ≤ start := hstart ▸ le_nextMultiple x (max_one_pos _)
        have halign : ∀ t ∈ rest, max t.align 1 ∣ start := fun t ht =>
          (hdvd t (List.mem_cons_of_mem _ ht)).trans (hstart ▸ dvd_nextMultiple x)
        have hcovered := h.covered _ List.mem_cons_self hpos
        rcases spread_behind halign hle with ⟨e, he, hepos, hebefore⟩ | hall
        · have happart := (List.pairwise_cons.mp h.apart).1 e he
          have hein := (h.covered e (List.mem_cons_of_mem _ he) hepos).1
          simp only [startOf, List.head?_cons, Option.elim_some, Extent.stop] at happart hein
          omega
        · obtain ⟨t, rest', rfl⟩ := List.exists_cons_of_ne_nil htwo.1
          have hsize : memSize (⟨start, s.size, s.hasFileBytes⟩ :: spread x (t :: rest')) = 0 := by
            rw [memSize, spread, List.getLast?_cons_cons, ← spread]
            obtain ⟨last, hlast⟩ : ∃ last, (spread x (t :: rest')).getLast? = some last :=
              ⟨_, List.getLast?_eq_some_getLast (List.cons_ne_nil _ _)⟩
            have := hall last (List.mem_of_getLast? hlast)
            rw [hlast]
            exact Nat.sub_eq_zero_of_le this
          rw [hsize] at hcovered
          simp only [startOf, List.head?_cons, Option.elim_some, Extent.stop] at hcovered
          omega
      exact iff_of_false (hnot x) (hnot 0)
    · -- The first section alone, or one that takes its addresses.
      have hzero : nextMultiple 0 (max s.align 1) = 0 :=
        nextMultiple_of_dvd (max_one_pos _) (Nat.dvd_zero _)
      have hshift : spread x (s :: rest) =
          (spread 0 (s :: rest)).map (Extent.shift (nextMultiple x (max s.align 1))) := by
        rw [spread, spread, hzero, List.map_cons]
        congr 1
        by_cases hrest : rest = []
        · rw [hrest, spread, spread, List.map_nil]
        · rw [if_neg fun htbss => htwo ⟨hrest, htbss⟩, if_neg fun htbss => htwo ⟨hrest, htbss⟩]
          rw [Nat.zero_add]
          exact spread_add (fun t ht => (hdvd t (List.mem_cons_of_mem _ ht)).trans
            (dvd_nextMultiple x)) _
      rw [hshift, rangesOk_shift]

/-! ### Rounds -/

/-- One section ends where the next one starts, or before. -/
def EndsBefore (a b : OutSection) : Prop := a.addr + a.size ≤ b.addr

/-- The template after the thread-local sections `placed`. -/
def TlsOf (tls : Option Tls) (placed : List OutSection) : Prop :=
  match placed.head?, placed.getLast? with
  | some first, some last =>
    tls = some ⟨first.addr, last.addr + last.size - first.addr,
      (placed.map OutSection.align).foldl max 1⟩
  | _, _ => tls = none

variable {c : Cursor} {s t : OutSection}

theorem openLoad_tls {c d : Cursor} {s : OutSection} {upcoming : List OutSection}
    (h : openLoad o c s upcoming = .ok d) : d.tls = c.tls := by
  rw [openLoad] at h
  split at h
  · rw [← Except.ok.inj h]
  · obtain ⟨start, -, h⟩ := bind_eq_ok.mp h
    obtain ⟨offset, -, h⟩ := bind_eq_ok.mp h
    rw [← Except.ok.inj h]

theorem endRelro_tls (c : Cursor) (s : OutSection) : (endRelro o c s).tls = c.tls := by
  rw [endRelro]
  split
  · rfl
  · split <;> rfl

theorem alignUp_eq {value align result : ℕ} (h : alignUp value align = .ok result) :
    result = nextMultiple value (max align 1) ∧ (max align 1).isPowerOfTwo := by
  obtain ⟨hle, -, hdvd, hleast⟩ := alignUp_spec h
  refine ⟨nextMultiple_eq (max_one_pos _) hle hdvd hleast, ?_⟩
  rw [alignUp] at h
  split at h
  · cases h
  · next hpow => exact not_not.mp hpow

/-- A new segment does not start before the location counter. -/
theorem openLoad_dot {c d : Cursor} {upcoming : List OutSection}
    (h : openLoad o c s upcoming = .ok d) : c.dot ≤ d.dot ∧ d.previous = o.perm s := by
  rw [openLoad] at h
  split at h
  · next hperm =>
    rw [← Except.ok.inj h]
    exact ⟨le_rfl, hperm.symm⟩
  obtain ⟨start, hstart, h⟩ := bind_eq_ok.mp h
  obtain ⟨offset, -, h⟩ := bind_eq_ok.mp h
  rw [← Except.ok.inj h]
  refine ⟨?_, rfl⟩
  show c.dot ≤ start.1
  obtain ⟨vaddr, hvaddr, hstart⟩ := bind_eq_ok.mp hstart
  have hle := (alignUp_spec hvaddr).1
  split at hstart
  · obtain ⟨sum, hsum, hstart⟩ := bind_eq_ok.mp hstart
    have hle' : c.dot ≤ sum := by
      rw [(add_eq_ok hsum).1]
      omega
    split at hstart
    · obtain ⟨region, hregion, hstart⟩ := bind_eq_ok.mp hstart
      rw [← Except.ok.inj hstart]
      exact hle'.trans (relroStart_spec (add_eq_ok hsum).2 hregion).1
    · rw [← Except.ok.inj hstart]
      exact hle'
  · rw [← Except.ok.inj hstart]
    exact hle

theorem endRelro_dot (c : Cursor) (s : OutSection) : c.dot ≤ (endRelro o c s).dot := by
  rw [endRelro]
  split
  · exact le_rfl
  · split
    · exact le_rfl
    · exact le_max_left _ _

/-- What a round does with the template and the location counter. -/
theorem placeNext_tls {d : Cursor} {upcoming : List OutSection}
    (h : placeNext o c s upcoming = .ok (d, t)) :
    ∃ c₁ address offset, openLoad o c s upcoming = .ok c₁ ∧
      alignUp (endRelro o c₁ s).dot s.align = .ok address ∧ address + s.size < 2 ^ 64 ∧
      t = { s with addr := address, offset := offset } ∧
      d.tls = tlsWith c.tls s address (address + s.size) ∧
      d.dot = (if s.isTbss then (endRelro o c₁ s).dot else address + s.size) ∧
      d.previous = (endRelro o c₁ s).previous ∧ d.relroEnd = (endRelro o c₁ s).relroEnd := by
  obtain ⟨c₁, hopen, h⟩ := bind_eq_ok.mp h
  obtain ⟨address, haddress, h⟩ := bind_eq_ok.mp h
  obtain ⟨stop, hstop, h⟩ := bind_eq_ok.mp h
  obtain ⟨rfl, rfl⟩ := Prod.mk.inj (Except.ok.inj h)
  obtain ⟨rfl, htop⟩ := add_eq_ok hstop
  refine ⟨c₁, address, _, hopen, haddress, htop, rfl, ?_, rfl, rfl, rfl⟩
  show tlsWith (endRelro o c₁ s).tls s address (address + s.size) = _
  rw [endRelro_tls, openLoad_tls hopen]

theorem TlsOf.snoc {tls : Option Tls} {placed : List OutSection} {address offset : ℕ}
    (h : TlsOf tls placed) (hs : s.isTls = true)
    (ht : t = { s with addr := address, offset := offset }) :
    TlsOf (tlsWith tls s address (address + s.size)) (placed ++ [t]) := by
  have hflags : s.flags &&& SHF_TLS ≠ 0 := by simpa [OutSection.isTls] using hs
  subst ht
  cases placed with
  | nil =>
    have htls : tls = none := h
    subst htls
    simp [TlsOf, tlsWith, hflags]
  | cons first rest =>
    obtain ⟨last, hlast⟩ : ∃ last, (first :: rest).getLast? = some last :=
      ⟨_, List.getLast?_eq_some_getLast (List.cons_ne_nil _ _)⟩
    simp only [TlsOf, hlast, List.head?_cons] at h
    subst h
    rw [TlsOf, List.getLast?_concat]
    simp [tlsWith, hflags]

/-- What is known of a thread-local section that was placed. -/
structure Fits (s : OutSection) : Prop where
  aligned : max s.align 1 ∣ s.addr
  power : (max s.align 1).isPowerOfTwo
  top : s.addr + s.size < 2 ^ 64

/-- A section without its place. -/
def unplaced (s : OutSection) : OutSection := { s with addr := 0, offset := 0 }

theorem placeAll_unplaced (sections : List OutSection) : ∀ {c d : Cursor}
    {placed : List OutSection}, placeAll o c sections = .ok (d, placed) →
      placed.map unplaced = sections.map unplaced := by
  induction sections with
  | nil =>
    intro c d placed h
    obtain ⟨-, rfl⟩ := Prod.mk.inj (Except.ok.inj h)
    rfl
  | cons s sections ih =>
    intro c d placed h
    rcases placeAll_cons_eq_ok h with
      ⟨-, c', t, rest, rfl, hnext, hrest⟩ | ⟨-, rest, rfl, hrest⟩
    · obtain ⟨c₁, address, offset, -, -, -, rfl, -⟩ := placeNext_tls hnext
      rw [List.map_cons, List.map_cons, ih hrest]
      rfl
    · rw [List.map_cons, List.map_cons, ih hrest]

theorem map_tlsSections_unplaced (sections : List OutSection) :
    (tlsSections sections).map unplaced = tlsSections (sections.map unplaced) := by
  rw [tlsSections, tlsSections, List.filter_map]
  rfl

/-- **What the address loop does with the thread-local sections.**  `before` are the ones
placed earlier; the location counter keeps the next ones behind those with file bytes. -/
theorem placeAll_tls (sections : List OutSection) : ∀ {c d : Cursor}
    {before placed : List OutSection}, placeAll o c sections = .ok (d, placed) →
      TlsOf c.tls before →
      TlsOf d.tls (before ++ tlsSections placed) ∧
        (∀ s ∈ tlsSections placed, Fits s ∧ c.dot ≤ s.addr) ∧
        (tlsSections placed).Pairwise fun a b => a.isTbss = false → EndsBefore a b := by
  induction sections with
  | nil =>
    intro c d before placed h htls
    obtain ⟨rfl, rfl⟩ := Prod.mk.inj (Except.ok.inj h)
    rw [tlsSections, List.filter_nil, List.append_nil]
    exact ⟨htls, fun s hs => absurd hs List.not_mem_nil, .nil⟩
  | cons s sections ih =>
    intro c d before placed h htls
    rcases placeAll_cons_eq_ok h with
      ⟨halloc, c', t, rest, rfl, hnext, hrest⟩ | ⟨halloc, rest, rfl, hrest⟩
    · obtain ⟨c₁, address, offset, hopen, haddress, htop, ht, htls', hdot, -, -⟩ :=
        placeNext_tls hnext
      have hle : c.dot ≤ (endRelro o c₁ s).dot := (openLoad_dot hopen).1.trans (endRelro_dot c₁ s)
      have haddr := (alignUp_spec haddress).1
      have hstep : c.dot ≤ c'.dot := by
        rw [hdot]
        split <;> omega
      cases hs : s.isTls with
      | false =>
        have hflags : ¬ s.flags &&& SHF_TLS ≠ 0 := by simpa [OutSection.isTls] using hs
        have htls'' : TlsOf c'.tls before := by
          rw [htls', tlsWith, if_neg hflags]
          exact htls
        have hts : t.isTls = false := by rw [ht]; exact hs
        obtain ⟨hafter, hfits, hpairs⟩ := ih hrest htls''
        rw [tlsSections_cons_of_not (by rw [hts, Bool.and_false])]
        exact ⟨hafter, fun u hu => ⟨(hfits u hu).1, hstep.trans (hfits u hu).2⟩, hpairs⟩
      | true =>
        have htls'' : TlsOf c'.tls (before ++ [t]) := by
          rw [htls']
          exact htls.snoc hs ht
        have hta : t.isAlloc = true := by rw [ht]; exact halloc
        have hts : t.isTls = true := by rw [ht]; exact hs
        obtain ⟨hafter, hfits, hpairs⟩ := ih hrest htls''
        rw [tlsSections_cons_of_tls hta hts, List.append_cons]
        refine ⟨hafter, List.forall_mem_cons.mpr ⟨?_, fun u hu => ?_⟩,
          List.pairwise_cons.mpr ⟨fun u hu htbss => ?_, hpairs⟩⟩
        · rw [ht]
          exact ⟨⟨(alignUp_spec haddress).2.2.1, (alignUp_eq haddress).2, htop⟩, hle.trans haddr⟩
        · exact ⟨(hfits u hu).1, hstep.trans (hfits u hu).2⟩
        · have hnot : s.isTbss = false := by rwa [ht] at htbss
          have hbehind := (hfits u hu).2
          rw [hdot, hnot] at hbehind
          rw [EndsBefore, ht]
          exact hbehind
    · rw [tlsSections_cons_of_not (by rw [halloc, Bool.false_and])]
      exact ih hrest htls

/-! ### The first thread-local section -/

theorem tlsSections_alignFirst (align : ℕ) (sections : List OutSection) :
    tlsSections (alignFirst align sections) =
      (tlsSections sections).modifyHead fun s => { s with align := max s.align align } := by
  induction sections with
  | nil => rfl
  | cons s sections ih =>
    rw [alignFirst]
    cases hs : s.isAlloc && s.isTls with
    | true =>
      obtain ⟨halloc, htls⟩ := Bool.and_eq_true_iff.mp hs
      rw [if_pos rfl, tlsSections_cons_of_tls (s := s) halloc htls,
        tlsSections_cons_of_tls (s := { s with align := max s.align align }) halloc htls]
      rfl
    | false =>
      rw [if_neg Bool.false_ne_true, tlsSections_cons_of_not hs, tlsSections_cons_of_not hs, ih]

variable {sections : List OutSection}

theorem hasTls_eq_false (h : hasTls sections = false) :
    tlsSections sections = [] := by
  rw [tlsSections, List.filter_eq_nil_iff]
  exact fun s hs => by simpa using List.any_eq_false.mp h s hs

/-- The first thread-local section has the largest alignment. -/
theorem align_le_first {first : ℕ} {rest : List ℕ}
    (h : (tlsSections (alignedSections sections)).map OutSection.align = first :: rest) :
    ∀ align ∈ rest, align ≤ first := by
  rw [alignedSections] at h
  split at h
  · rw [alignTlsStart, tlsSections_alignFirst] at h
    cases hsections : tlsSections sections with
    | nil => rw [hsections] at h; exact nomatch h
    | cons s l =>
      rw [hsections, List.modifyHead_cons, List.map_cons, List.map_cons, List.cons.injEq] at h
      obtain ⟨rfl, rfl⟩ := h
      intro align hmem
      obtain ⟨m, hm⟩ : ∃ m, (s.align :: l.map OutSection.align).max? = some m :=
        ⟨_, List.max?_cons'⟩
      have hle := (List.max?_le_iff hm).mp le_rfl align (List.mem_cons_of_mem _ hmem)
      rw [hm, Option.getD_some]
      exact hle.trans (Nat.le_max_right _ _)
  · next hnone =>
    rw [hasTls_eq_false (by simpa using hnone)] at h
    exact nomatch h

theorem foldl_max_of_le {first : ℕ} (rest : List ℕ) : ∀ {m : ℕ}, first ≤ m →
    (∀ align ∈ rest, align ≤ first) → rest.foldl max m = m := by
  induction rest with
  | nil => exact fun _ _ => rfl
  | cons a rest ih =>
    intro m hm hall
    have ha := hall a List.mem_cons_self
    rw [List.foldl_cons, Nat.max_eq_left (by omega)]
    exact ih hm fun b hb => hall b (List.mem_cons_of_mem _ hb)

/-! ### Sections that stand together -/

/-- The thread-local sections stand together: no other allocated section is between them, their
permissions and their place in RELRO are the same, and an empty one without file bytes does not come
first of several. -/
structure Together (o : Options) (sections : List OutSection) : Prop where
  adjacent : tlsSections sections <:+: sections.filter OutSection.isAlloc
  alike : ∀ s ∈ tlsSections sections, ∀ t ∈ tlsSections sections,
    o.perm s = o.perm t ∧ o.isRelro s = o.isRelro t
  first : ∀ s rest, tlsSections sections = s :: rest → rest ≠ [] → s.isTbss = true → 0 < s.size

theorem tlsSections_eq_filter (sections : List OutSection) :
    tlsSections sections = (sections.filter OutSection.isAlloc).filter OutSection.isTls := by
  rw [List.filter_filter, tlsSections]
  exact List.filter_congr fun s _ => Bool.and_comm _ _

theorem isTls_of_mem (h : s ∈ tlsSections sections) : s.isAlloc = true ∧ s.isTls = true :=
  Bool.and_eq_true_iff.mp (List.mem_filter.mp h).2

/-- Thread-local sections that stand together do so from the first one on. -/
theorem prefix_of_infix (halloc : s.isAlloc = true) (hs : s.isTls = true)
    (h : tlsSections (s :: sections) <:+: (s :: sections).filter OutSection.isAlloc) :
    tlsSections sections <+: sections.filter OutSection.isAlloc := by
  rw [tlsSections_cons_of_tls halloc hs, List.filter_cons_of_pos halloc,
    List.infix_cons_iff] at h
  rcases h with h | h
  · exact ((List.cons_prefix_cons).mp h).2
  · have hall : (s :: tlsSections sections).filter OutSection.isTls = s :: tlsSections sections := by
      refine List.filter_eq_self.mpr (List.forall_mem_cons.mpr ⟨hs, fun t ht => ?_⟩)
      exact (isTls_of_mem ht).2
    have hle := (h.sublist.filter OutSection.isTls).length_le
    rw [hall, ← tlsSections_eq_filter, List.length_cons] at hle
    omega

theorem tlsSections_placed {d : Cursor} {placed : List OutSection}
    (hplaced : placeAll o c sections = .ok (d, placed)) :
    (tlsSections placed).map unplaced = (tlsSections sections).map unplaced := by
  rw [map_tlsSections_unplaced, placeAll_unplaced _ hplaced, ← map_tlsSections_unplaced]

theorem endRelro_eq_self (h : o.isRelro s = true ∨ c.relroEnd = none) : endRelro o c s = c := by
  rw [endRelro]
  rcases h with h | h
  · rw [if_pos h]
  · rw [h, ite_self]

theorem endRelro_previous (c : Cursor) (s : OutSection) :
    (endRelro o c s).previous = c.previous := by
  rw [endRelro]
  split
  · rfl
  · split <;> rfl

theorem endRelro_relroEnd (h : o.isRelro s = false) (c : Cursor) :
    (endRelro o c s).relroEnd = none := by
  rw [endRelro, h, if_neg Bool.false_ne_true]
  split
  · assumption
  · rfl

/-- Where another section comes first, no thread-local section is left. -/
theorem tlsSections_eq_nil {rest : List OutSection} (hs : (s.isAlloc && s.isTls) = false)
    (h : tlsSections sections <+: s :: rest) : tlsSections sections = [] := by
  cases htls : tlsSections sections with
  | nil => rfl
  | cons t others =>
    have ht := isTls_of_mem (htls ▸ List.mem_cons_self : t ∈ tlsSections sections)
    rw [htls, List.cons_prefix_cons] at h
    rw [h.1] at ht
    rw [ht.1, ht.2] at hs
    exact nomatch hs

/-- **The thread-local sections are spread from the location counter on**, where they come
before any other section and neither a segment nor RELRO ends among them. -/
theorem placeAll_block (sections : List OutSection) : ∀ {c d : Cursor} {placed : List OutSection},
    placeAll o c sections = .ok (d, placed) →
      tlsSections sections <+: sections.filter OutSection.isAlloc →
      (∀ s ∈ tlsSections sections, o.perm s = c.previous) →
      (∀ s ∈ tlsSections sections, o.isRelro s = true) ∨ c.relroEnd = none →
      (tlsSections placed).map OutSection.extent = spread c.dot (tlsSections sections) := by
  induction sections with
  | nil =>
    intro c d placed h _ _ _
    obtain ⟨-, rfl⟩ := Prod.mk.inj (Except.ok.inj h)
    rfl
  | cons s sections ih =>
    intro c d placed h hprefix hperm hrelro
    have hsame := tlsSections_placed h
    rcases placeAll_cons_eq_ok h with
      ⟨halloc, c', t, rest, rfl, hnext, hrest⟩ | ⟨halloc, rest, rfl, hrest⟩
    · rw [List.filter_cons_of_pos halloc] at hprefix
      cases htls : s.isTls with
      | true =>
        obtain ⟨c₁, address, offset, hopen, haddress, -, rfl, -, hdot, hprevious, hend⟩ :=
          placeNext_tls hnext
        rw [tlsSections_cons_of_tls halloc htls] at hprefix hperm hrelro
        rw [openLoad, if_pos (hperm s List.mem_cons_self)] at hopen
        obtain rfl := Except.ok.inj hopen
        have hstay := endRelro_eq_self (hrelro.imp_left fun h => h s List.mem_cons_self)
        rw [hstay] at hdot haddress hprevious hend
        rw [tlsSections_cons_of_tls (s := { s with addr := address, offset := offset }) halloc htls,
          tlsSections_cons_of_tls halloc htls, List.map_cons, spread, ← (alignUp_eq haddress).1,
          ← hdot]
        congr 1
        refine ih hrest (List.cons_prefix_cons.mp hprefix).2 (fun t ht => ?_)
          (hrelro.imp (fun h t ht => ?_) fun h => ?_)
        · rw [hprevious]
          exact hperm t (List.mem_cons_of_mem _ ht)
        · exact h t (List.mem_cons_of_mem _ ht)
        · rw [hend, h]
      | false =>
        have hs : (s.isAlloc && s.isTls) = false := by rw [htls, Bool.and_false]
        rw [tlsSections_cons_of_not hs] at hprefix hsame ⊢
        have hnil := tlsSections_eq_nil hs hprefix
        rw [hnil, List.map_nil, List.map_eq_nil_iff] at hsame
        rw [hnil, hsame]
        rfl
    · have hs : (s.isAlloc && s.isTls) = false := by rw [halloc, Bool.false_and]
      rw [List.filter_cons_of_neg (Bool.eq_false_iff.mp halloc)] at hprefix
      rw [tlsSections_cons_of_not hs] at hprefix hperm hrelro
      rw [tlsSections_cons_of_not hs, tlsSections_cons_of_not hs]
      exact ih hrest hprefix hperm hrelro

/-- **Where thread-local sections stand together, they are spread from some position on.** -/
theorem placeAll_spread (sections : List OutSection) : ∀ {c d : Cursor} {placed : List OutSection},
    placeAll o c sections = .ok (d, placed) →
      tlsSections sections <:+: sections.filter OutSection.isAlloc →
      (∀ s ∈ tlsSections sections, ∀ t ∈ tlsSections sections,
        o.perm s = o.perm t ∧ o.isRelro s = o.isRelro t) →
      ∃ x, (tlsSections placed).map OutSection.extent = spread x (tlsSections sections) := by
  induction sections with
  | nil =>
    intro c d placed h _ _
    obtain ⟨-, rfl⟩ := Prod.mk.inj (Except.ok.inj h)
    exact ⟨0, rfl⟩
  | cons s sections ih =>
    intro c d placed h htogether halike
    rcases placeAll_cons_eq_ok h with
      ⟨halloc, c', t, rest, rfl, hnext, hrest⟩ | ⟨halloc, rest, rfl, hrest⟩
    · obtain ⟨c₁, address, offset, hopen, haddress, -, rfl, -, hdot, hprevious, hend⟩ :=
        placeNext_tls hnext
      cases htls : s.isTls with
      | true =>
        have hprefix := prefix_of_infix halloc htls htogether
        rw [tlsSections_cons_of_tls halloc htls] at halike
        have halike : ∀ t ∈ tlsSections sections,
            o.perm s = o.perm t ∧ o.isRelro s = o.isRelro t :=
          fun t ht => halike s List.mem_cons_self t (List.mem_cons_of_mem _ ht)
        refine ⟨(endRelro o c₁ s).dot, ?_⟩
        rw [tlsSections_cons_of_tls (s := { s with addr := address, offset := offset }) halloc htls,
          tlsSections_cons_of_tls halloc htls, List.map_cons, spread, ← (alignUp_eq haddress).1,
          ← hdot]
        congr 1
        refine placeAll_block _ hrest hprefix (fun t ht => ?_) ?_
        · rw [hprevious, endRelro_previous, (openLoad_dot hopen).2, (halike t ht).1]
        · cases hrelro : o.isRelro s with
          | true => exact .inl fun t ht => (halike t ht).2 ▸ hrelro
          | false => exact .inr (hend.trans (endRelro_relroEnd hrelro c₁))
      | false =>
        have hs : (s.isAlloc && s.isTls) = false := by rw [htls, Bool.and_false]
        rw [tlsSections_cons_of_not hs] at htogether halike ⊢
        rw [tlsSections_cons_of_not (s := { s with addr := address, offset := offset }) hs]
        rw [List.filter_cons_of_pos halloc, List.infix_cons_iff] at htogether
        refine ih hrest (htogether.elim (fun hprefix => ?_) id) halike
        rw [tlsSections_eq_nil hs hprefix]
        exact List.nil_infix
    · have hs : (s.isAlloc && s.isTls) = false := by rw [halloc, Bool.false_and]
      rw [List.filter_cons_of_neg (Bool.eq_false_iff.mp halloc)] at htogether
      rw [tlsSections_cons_of_not hs] at htogether halike
      rw [tlsSections_cons_of_not hs, tlsSections_cons_of_not hs]
      exact ih hrest htogether halike

/-! ### The template and its ranges -/

/-- Different addresses have different offsets from the thread pointer. -/
theorem tpOffset_inj {t : Tls} {arch : Arch} {x y : ℕ} (hx : x < 2 ^ 64) (hy : y < 2 ^ 64)
    (h : t.tpOffset arch x = t.tpOffset arch y) : x = y := by
  rw [Tls.tpOffset, Tls.tpOffset, wrappingSub, wrappingSub] at h
  have htp : t.tp arch < 2 ^ 64 := by
    unfold Tls.tp
    split
    · exact Nat.mod_lt _ (by decide)
    · dsimp only
      split <;> exact Nat.mod_lt _ (by decide)
  omega

theorem max_getD_le {l : List ℕ} {m : ℕ} : l.max?.getD 0 ≤ m ↔ ∀ n ∈ l, n ≤ m := by
  cases hmax : l.max? with
  | none =>
    rw [List.max?_eq_none_iff] at hmax
    subst hmax
    exact iff_of_true (Nat.zero_le _) nofun
  | some top => exact List.max?_le_iff hmax

theorem range_subset_iff {a b : ℕ} :
    s.range ⊆ Set.Ico a b ↔ (0 < s.size → a ≤ s.addr ∧ s.addr + s.size ≤ b) := by
  rcases Nat.eq_zero_or_pos s.size with hsize | hsize
  · rw [OutSection.range, hsize, Nat.add_zero, Set.Ico_self]
    exact iff_of_true (Set.empty_subset _) fun h => absurd h (Nat.lt_irrefl 0)
  · rw [OutSection.range, Set.Ico_subset_Ico_iff (Nat.lt_add_of_pos_right hsize)]
    exact ⟨fun h _ => h, fun h => h hsize⟩

theorem disjoint_range_iff : Disjoint s.range t.range ↔
    s.size = 0 ∨ t.size = 0 ∨ s.extent.stop ≤ t.addr ∨ t.extent.stop ≤ s.addr := by
  rw [OutSection.range, OutSection.range, Set.Ico_disjoint_Ico]
  simp only [Extent.stop, OutSection.extent]
  omega

theorem files_le_iff {start m : ℕ} {l : List OutSection} (hfits : ∀ s ∈ l, Fits s) :
    ((l.filter OutSection.hasFileBytes).map fun s =>
        saturatingAdd s.addr s.size - start).max?.getD 0 ≤ m ↔
      ∀ s ∈ l, s.hasFileBytes = true → s.extent.stop - start ≤ m := by
  rw [max_getD_le, List.forall_mem_map]
  constructor
  · intro h s hs hfile
    have := h s (List.mem_filter.mpr ⟨hs, hfile⟩)
    rwa [saturatingAdd_of_lt (hfits s hs).top] at this
  · intro h s hs
    obtain ⟨hmem, hfile⟩ := List.mem_filter.mp hs
    rw [saturatingAdd_of_lt (hfits s hmem).top]
    exact h s hmem hfile

/-- **A template is well formed when its ranges make one.** -/
theorem templateOk_iff {image : Image} {t : Tls} {p : Segment}
    (htls : TlsOf image.tls (tlsSections image.sections))
    (hfits : ∀ s ∈ tlsSections image.sections, Fits s)
    (haligns : ∀ first rest, tlsSections image.sections = first :: rest →
      ∀ s ∈ rest, s.align ≤ first.align)
    (ht : image.tls = some t) (hp : tlsSegment image = some p) :
    TemplateOk image t p ↔ RangesOk ((tlsSections image.sections).map OutSection.extent) := by
  rw [tlsSegment, ht, Option.map_some, Option.some.injEq] at hp
  subst hp
  generalize hl : tlsSections image.sections = l at htls hfits haligns
  cases l with
  | nil => exact nomatch ht.symm.trans htls
  | cons first rest =>
    obtain ⟨last, hlast⟩ : ∃ last, (first :: rest).getLast? = some last :=
      ⟨_, List.getLast?_eq_some_getLast (List.cons_ne_nil _ _)⟩
    simp only [TlsOf, hlast, List.head?_cons] at htls
    rw [ht, Option.some.injEq] at htls
    have hstart : t.start = startOf ((first :: rest).map OutSection.extent) := by rw [htls]; rfl
    have hmem : t.memsz = memSize ((first :: rest).map OutSection.extent) := by
      rw [htls, memSize, List.getLast?_map, hlast]
      rfl
    have halign : t.align ∣ t.start := by
      have hmax : t.align = max 1 first.align := by
        rw [htls]
        show ((first :: rest).map OutSection.align).foldl max 1 = _
        rw [List.map_cons, List.foldl_cons]
        refine foldl_max_of_le _ (Nat.le_max_right _ _) (List.forall_mem_map.mpr ?_)
        exact haligns first rest rfl
      rw [hmax, Nat.max_comm, htls]
      exact (hfits first List.mem_cons_self).aligned
    have hdisjoint : ((first :: rest).Pairwise fun a b => Disjoint a.range b.range) ↔
        ((first :: rest).map OutSection.extent).Pairwise fun a b =>
          a.size = 0 ∨ b.size = 0 ∨ a.stop ≤ b.addr ∨ b.stop ≤ a.addr := by
      rw [List.pairwise_map]
      exact ⟨fun h => h.imp fun hab => disjoint_range_iff.mp hab,
        fun h => h.imp fun hab => disjoint_range_iff.mpr hab⟩
    constructor
    · intro h
      refine ⟨List.forall_mem_map.mpr fun s hs => ?_, hdisjoint.mp (hl ▸ h.apart),
        List.forall_mem_map.mpr fun s hs => ?_⟩
      · rw [← hstart, ← hmem]
        exact range_subset_iff.mp (h.covered s (hl ▸ hs))
      · have hsizes := h.sizes
        rw [← hstart, ← hmem]
        simp only [hl] at hsizes
        exact (files_le_iff hfits).mp hsizes s hs
    · intro h
      have hcovered := List.forall_mem_map.mp h.covered
      have hfiles := List.forall_mem_map.mp h.files
      rw [← hstart, ← hmem] at hcovered hfiles
      refine ⟨halign, fun s hs => ?_, ?_, ?_, fun arch => ?_⟩
      · exact range_subset_iff.mpr (hcovered s (hl ▸ hs))
      · rw [hl]
        exact hdisjoint.mpr h.apart
      · simp only [hl]
        exact (files_le_iff hfits).mpr hfiles
      · rw [hl]
        refine (hdisjoint.mpr h.apart).imp_of_mem fun {a b} ha hb hab x hx y hy hsame => ?_
        have hx' := hx.2.trans (hfits a ha).top
        have hy' := hy.2.trans (hfits b hb).top
        obtain rfl := tpOffset_inj hx' hy' hsame
        exact Set.disjoint_left.mp hab hx hy

/-! ### Whole layouts -/

/-- The thread-local sections of the result are those the address loop placed. -/
theorem layoutOnce_spec {image : Image} (h : layoutOnce o sections = .ok image) :
    ∃ c d placed, c.tls = none ∧ placeAll o c (alignedSections sections) = .ok (d, placed) ∧
      image.tls = d.tls ∧
      tlsSections image.sections =
        (tlsSections placed).map fun s => { s with lma := s.addr } := by
  obtain ⟨base, -, h⟩ := bind_eq_ok.mp h
  obtain ⟨headers, -, h⟩ := bind_eq_ok.mp h
  obtain ⟨dot, -, h⟩ := bind_eq_ok.mp h
  obtain ⟨⟨d, placed⟩, hplaced, h⟩ := bind_eq_ok.mp h
  obtain ⟨stop, -, h⟩ := bind_eq_ok.mp h
  obtain ⟨⟨fileEnd, file⟩, hfile, h⟩ := bind_eq_ok.mp h
  obtain ⟨shoff, -, h⟩ := bind_eq_ok.mp h
  obtain ⟨fileSize, -, h⟩ := bind_eq_ok.mp h
  obtain rfl := Except.ok.inj h
  refine ⟨initial o base headers dot, d, placed, rfl, hplaced, rfl, ?_⟩
  obtain ⟨-, -, -, hfilter, -⟩ := placeFile_spec placed hfile
  show tlsSections (file.map fun s => { s with lma := s.addr }) = _
  rw [tlsSections, List.filter_map]
  show (tlsSections file).map _ = _
  rw [tlsSections_eq_filter, hfilter, ← tlsSections_eq_filter]

/-- What does not depend on addresses is as it was. -/
theorem map_placed {β : Type} (f : OutSection → β) (hf : ∀ s, f (unplaced s) = f s) {d : Cursor}
    {placed : List OutSection} (hplaced : placeAll o c sections = .ok (d, placed)) :
    (tlsSections placed).map f = (tlsSections sections).map f := by
  have := congrArg (List.map f) (tlsSections_placed hplaced)
  simpa only [List.map_map, Function.comp_def, hf] using this

theorem TlsOf.eq_nil {l : List OutSection} (h : TlsOf none l) : l = [] := by
  cases l with
  | nil => rfl
  | cons first rest =>
    simp only [TlsOf, List.head?_cons,
      List.getLast?_eq_some_getLast (List.cons_ne_nil first rest)] at h
    cases h

/-- **The template of a layout is well formed when the ranges of the placed sections make one.** -/
theorem tlsOk_iff {image : Image} (h : layoutOnce o sections = .ok image) :
    ∃ c d placed, c.tls = none ∧ placeAll o c (alignedSections sections) = .ok (d, placed) ∧
      (TlsOk image ↔ RangesOk ((tlsSections placed).map OutSection.extent)) := by
  obtain ⟨c, d, placed, hnone, hplaced, himage, hsections⟩ := layoutOnce_spec h
  obtain ⟨htls, hfits, -⟩ := placeAll_tls _ hplaced (show TlsOf c.tls [] from hnone)
  refine ⟨c, d, placed, hnone, hplaced, ?_⟩
  rw [List.nil_append] at htls
  have hextents : (tlsSections image.sections).map OutSection.extent =
      (tlsSections placed).map OutSection.extent := by
    rw [hsections, List.map_map]
    rfl
  have htls' : TlsOf image.tls (tlsSections image.sections) := by
    rw [himage, hsections]
    unfold TlsOf at htls ⊢
    rw [List.head?_map, List.getLast?_map, List.map_map]
    cases hhead : (tlsSections placed).head? <;> cases hlast : (tlsSections placed).getLast? <;>
      simp only [hhead, hlast] at htls ⊢ <;> exact htls
  have hfits' : ∀ s ∈ tlsSections image.sections, Fits s := by
    intro s hs
    rw [hsections] at hs
    obtain ⟨u, hu, rfl⟩ := List.mem_map.mp hs
    exact ⟨(hfits u hu).1.aligned, (hfits u hu).1.power, (hfits u hu).1.top⟩
  have haligns : ∀ first rest, tlsSections image.sections = first :: rest →
      ∀ s ∈ rest, s.align ≤ first.align := by
    intro first rest hl s hs
    have hmap : (tlsSections (alignedSections sections)).map OutSection.align =
        first.align :: rest.map OutSection.align := by
      rw [← map_placed OutSection.align (fun _ => rfl) hplaced, ← List.map_cons, ← hl, hsections,
        List.map_map]
      rfl
    exact align_le_first hmap _ (List.mem_map_of_mem hs)
  rw [← hextents]
  cases ht : image.tls with
  | none =>
    rw [ht] at htls'
    rw [htls'.eq_nil]
    exact iff_of_true (fun t p hsome => nomatch ht.symm.trans hsome) ⟨nofun, .nil, nofun⟩
  | some t =>
    have hp : ∃ p, tlsSegment image = some p := by rw [tlsSegment, ht]; exact ⟨_, rfl⟩
    obtain ⟨p, hp⟩ := hp
    have hiff := templateOk_iff htls' hfits' haligns ht hp
    refine ⟨fun hok => hiff.mp (hok t p ht hp), fun hok u q hu hq => ?_⟩
    obtain rfl := Option.some.inj (ht.symm.trans hu)
    obtain rfl := Option.some.inj (hp.symm.trans hq)
    exact hiff.mpr hok

theorem pairwise_isTbss_alignedSections
    (h : (tlsSections sections).Pairwise fun a _ => a.isTbss = false) :
    (tlsSections (alignedSections sections)).Pairwise fun a _ => a.isTbss = false := by
  rw [alignedSections]
  split
  · rw [alignTlsStart, tlsSections_alignFirst]
    cases hl : tlsSections sections with
    | nil => exact List.Pairwise.nil
    | cons s l =>
      rw [hl, List.pairwise_cons] at h
      exact List.pairwise_cons.mpr ⟨h.1, h.2⟩
  · exact h

/-- The alignments of the thread-local sections divide that of the first one. -/
theorem align_dvd_first {d : Cursor} {placed : List OutSection} (hnone : c.tls = none)
    (hplaced : placeAll o c (alignedSections sections) = .ok (d, placed)) :
    ∀ s ∈ tlsSections (alignedSections sections),
      ∀ first ∈ (tlsSections (alignedSections sections)).head?,
        max s.align 1 ∣ max first.align 1 := by
  obtain ⟨-, hfits, -⟩ := placeAll_tls _ hplaced (show TlsOf c.tls [] from hnone)
  have hpower : ∀ s ∈ tlsSections (alignedSections sections), (max s.align 1).isPowerOfTwo := by
    intro s hs
    have hmem := List.mem_map_of_mem (f := OutSection.align) hs
    rw [← map_placed OutSection.align (fun _ => rfl) hplaced] at hmem
    obtain ⟨u, hu, heq⟩ := List.mem_map.mp hmem
    exact heq ▸ (hfits u hu).1.power
  intro s hs first hfirst
  have hle : s.align ≤ first.align := by
    cases hl : tlsSections (alignedSections sections) with
    | nil => rw [hl] at hs; exact absurd hs List.not_mem_nil
    | cons a rest =>
      rw [hl] at hs hfirst
      obtain rfl := Option.mem_some_iff.mp hfirst
      rcases List.mem_cons.mp hs with rfl | hs
      · exact le_rfl
      · exact align_le_first (by rw [hl, List.map_cons]) _ (List.mem_map_of_mem hs)
  obtain ⟨j, hj⟩ := hpower s hs
  obtain ⟨k, hk⟩ := hpower first (List.mem_of_mem_head? hfirst)
  have hpow : 2 ^ j ≤ 2 ^ k := by omega
  rw [hj, hk]
  exact Nat.pow_dvd_pow 2 ((Nat.pow_le_pow_iff_right (by decide)).mp hpow)

/-- **The template of a layout (proved).**  It is well formed when no thread-local section follows
one without file bytes, and where these sections stand together, exactly when the ranges that their
sizes and alignments give them make a template. -/
theorem tlsTemplate_ok (o : Options) (sections : List OutSection) (image : Image)
    (h : layoutOnce o sections = .ok image) :
    ((tlsSections sections).Pairwise (fun a _ => a.isTbss = false) → TlsOk image) ∧
    (Together o (alignedSections sections) →
      (TlsOk image ↔ RangesOk (spread 0 (tlsSections (alignedSections sections))))) := by
  obtain ⟨c, d, placed, hnone, hplaced, hok⟩ := tlsOk_iff h
  rw [hok]
  refine ⟨fun hlast => ?_, fun htogether => ?_⟩
  · obtain ⟨-, -, hpairs⟩ := placeAll_tls _ hplaced (show TlsOf c.tls [] from hnone)
    have htbss : ((tlsSections placed).map OutSection.isTbss).Pairwise fun a _ => a = false := by
      rw [map_placed OutSection.isTbss (fun _ => rfl) hplaced, List.pairwise_map]
      exact pairwise_isTbss_alignedSections hlast
    refine rangesOk_of_pairwise (List.pairwise_map.mpr ?_)
    exact ((List.pairwise_map.mp htbss).and hpairs).imp fun h => h.2 h.1
  · obtain ⟨x, hx⟩ := placeAll_spread _ hplaced htogether.adjacent htogether.alike
    rw [hx]
    exact rangesOk_spread x (align_dvd_first hnone hplaced) htogether.first

/-- Thread-local orphans: data, and two without file bytes of which the second starts behind the
first. -/
def tbssBehind : List OutSection :=
  [⟨3, 1, 0x403, 0, 0, 4, 4, 0⟩, ⟨4, 8, 0x403, 0, 0, 4, 4, 0⟩, ⟨5, 8, 0x403, 0, 0, 8, 16, 0⟩]

theorem tbssBehind_together : Together sampleOptions (alignedSections tbssBehind) where
  adjacent := by decide
  alike := by decide
  first := by
    intro s rest h _ htbss
    obtain rfl : _ = s := (List.cons.inj (h.symm.trans rfl)).1.symm
    exact absurd htbss (by decide)

/-- Code, thread-local data with and without contents and other data; and two sections without file
bytes that do not meet. -/
theorem tlsTemplate_ok_sample :
    (∃ image t p, layoutOnce sampleOptions sampleSections = .ok image ∧ image.tls = some t ∧
      tlsSegment image = some p ∧ TemplateOk image t p) ∧
    ∃ image t p, layoutOnce sampleOptions tbssBehind = .ok image ∧ image.tls = some t ∧
      tlsSegment image = some p ∧ TemplateOk image t p :=
  ⟨⟨_, _, _, rfl, rfl, rfl,
    (tlsTemplate_ok sampleOptions sampleSections _ rfl).1 (by decide) _ _ rfl rfl⟩,
    ⟨_, _, _, rfl, rfl, rfl,
      ((tlsTemplate_ok sampleOptions tbssBehind _ rfl).2 tbssBehind_together).mpr (by decide)
        _ _ rfl rfl⟩⟩

/-- Two orphans without file bytes. -/
def twoTbss : List OutSection := [⟨3, 8, 0x403, 0, 0, 64, 8, 0⟩, ⟨4, 8, 0x403, 0, 0, 32, 8, 0⟩]

/-- **Two thread-local sections without file bytes get the same addresses.** -/
theorem tlsTemplate_twoTbss : ∃ image t p, layoutOnce sampleOptions twoTbss = .ok image ∧
    image.tls = some t ∧ tlsSegment image = some p ∧ ¬ TemplateOk image t p := by
  refine ⟨_, _, _, rfl, rfl, rfl, fun h => ?_⟩
  have happart := (List.pairwise_cons.mp h.apart).1 _ List.mem_cons_self
  exact Set.disjoint_left.mp happart ⟨le_rfl, by decide⟩ ⟨le_rfl, by decide⟩

end Qld.Elf.Layout
