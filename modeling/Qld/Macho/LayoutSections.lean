import Qld.Macho.Layout

/-!
# The sections of a segment

* `placeSections_spec` — sections follow one another, in memory and in the file;
* `endOf`, `positionOf` — where sections end that follow one another, and where the next one starts;
* `Follows.position` — the loop places every section there.
-/

namespace Qld.Macho

open Qld.Lib

/-! ### One section -/

variable {a value : ℕ}

theorem addOr_eq_ok {b c : ℕ} (h : addOr a b = .ok c) : c = a + b ∧ a + b < 2 ^ 64 :=
  checkedAdd_eq_some (okOrElse_eq_ok.mp h)

theorem OutSection.exists_alignment (s : OutSection) : ∃ k < 64, s.alignment = 2 ^ k := by
  rw [OutSection.alignment]
  split
  · next h => exact ⟨s.align, h, rfl⟩
  · exact ⟨0, by decide, rfl⟩

theorem le_alignUp (s : OutSection) (hvalue : value < 2 ^ 64) :
    value ≤ alignUp value s.alignment ∧ alignUp value s.alignment ≤ U64_MAX := by
  obtain ⟨k, hk, halign⟩ := s.exists_alignment
  rw [halign]
  obtain ⟨hle, hmax, -⟩ := alignUp_spec hvalue hk
  exact ⟨hle, hmax⟩

/-- What is below the largest `u64` was rounded up. -/
theorem alignUp_of_lt (s : OutSection) (hvalue : value < 2 ^ 64)
    (h : alignUp value s.alignment < U64_MAX) :
    value + (s.alignment - 1) ≤ U64_MAX ∧
      alignUp value s.alignment = (value + (s.alignment - 1)) / s.alignment * s.alignment := by
  obtain ⟨k, hk, halign⟩ := s.exists_alignment
  rw [halign] at h ⊢
  obtain ⟨-, -, hlarge, hsmall⟩ := alignUp_spec hvalue hk
  have hfits : value + (2 ^ k - 1) ≤ U64_MAX := by
    by_contra hnot
    have := hlarge (by omega)
    omega
  exact ⟨hfits, hsmall hfits⟩

/-- What a section is, without its place. -/
structure SameSection (s t : OutSection) : Prop where
  flags : t.flags = s.flags
  align : t.align = s.align
  size : t.size = s.size

namespace SameSection

variable {s t : OutSection}

theorem isZerofill (h : SameSection s t) : t.isZerofill = s.isZerofill := by
  rw [OutSection.isZerofill, OutSection.isZerofill, OutSection.type, OutSection.type, h.flags]

theorem alignment (h : SameSection s t) : t.alignment = s.alignment := by
  rw [OutSection.alignment, OutSection.alignment, h.align]

end SameSection

/-- Where a section is, after the cursors. -/
structure PlacedAt (c c' : Cursor) (t : OutSection) : Prop where
  addr : t.addr = alignUp c.addr t.alignment
  stop : c'.addr = t.addr + t.size
  zerofill : t.isZerofill = true → c'.file = c.file
  contents : t.isZerofill = false → t.offset = alignUp c.file t.alignment ∧
    c'.file = t.offset + t.size
  bounds : c.addr < 2 ^ 64 → c.file < 2 ^ 64 → c'.addr < 2 ^ 64 ∧ c'.file < 2 ^ 64

variable {c c' : Cursor} {t : OutSection}

theorem placeSection_spec {s : OutSection} (h : placeSection c s = .ok (c', t)) :
    SameSection s t ∧ PlacedAt c c' t := by
  obtain ⟨next, hnext, h⟩ := bind_eq_ok.mp h
  obtain ⟨rfl, hlt⟩ := addOr_eq_ok hnext
  cases hzero : s.isZerofill with
  | true =>
    rw [hzero, if_pos rfl] at h
    obtain ⟨rfl, rfl⟩ := Prod.mk.inj (Except.ok.inj h)
    refine ⟨⟨rfl, rfl, rfl⟩, rfl, rfl, fun _ => rfl, fun hnot => ?_, fun _ hfile => ⟨hlt, hfile⟩⟩
    exact nomatch hzero.symm.trans hnot
  | false =>
    rw [hzero, if_neg Bool.false_ne_true] at h
    obtain ⟨nextFile, hfile, h⟩ := bind_eq_ok.mp h
    obtain ⟨rfl, hlt'⟩ := addOr_eq_ok hfile
    obtain ⟨rfl, rfl⟩ := Prod.mk.inj (Except.ok.inj h)
    refine ⟨⟨rfl, rfl, rfl⟩, rfl, rfl, fun hyes => ?_, fun _ => ⟨rfl, rfl⟩,
      fun _ _ => ⟨hlt, hlt'⟩⟩
    exact nomatch hzero.symm.trans hyes

/-! ### All sections -/

/-- Placed sections, from one cursor to another. -/
def Follows : Cursor → List OutSection → Cursor → Prop
  | c, [], stop => stop = c
  | c, t :: placed, stop => ∃ c', PlacedAt c c' t ∧ Follows c' placed stop

theorem placeSections_spec (sections : List OutSection) : ∀ {c stop : Cursor}
    {placed : List OutSection}, placeSections sections c = .ok (stop, placed) →
    List.Forall₂ SameSection sections placed ∧ Follows c placed stop := by
  induction sections with
  | nil =>
    intro c stop placed h
    obtain ⟨rfl, rfl⟩ := Prod.mk.inj (Except.ok.inj h)
    exact ⟨.nil, rfl⟩
  | cons s sections ih =>
    intro c stop placed h
    obtain ⟨⟨c', t⟩, hfirst, h⟩ := bind_eq_ok.mp h
    obtain ⟨⟨stop', rest⟩, hrest, h⟩ := bind_eq_ok.mp h
    obtain ⟨rfl, rfl⟩ := Prod.mk.inj (Except.ok.inj h)
    obtain ⟨hsame, hplaced⟩ := placeSection_spec hfirst
    obtain ⟨hsames, hfollows⟩ := ih hrest
    exact ⟨.cons hsame hsames, c', hplaced, hfollows⟩

/-- A cursor of `u64`s. -/
def Cursor.Typed (c : Cursor) : Prop := c.addr < 2 ^ 64 ∧ c.file < 2 ^ 64

namespace PlacedAt

variable {c c' : Cursor} {t : OutSection}

theorem typed (h : PlacedAt c c' t) (hc : c.Typed) : c'.Typed := h.bounds hc.1 hc.2

theorem le (h : PlacedAt c c' t) (hc : c.Typed) : c.addr ≤ t.addr ∧ c.addr ≤ c'.addr ∧
    c.file ≤ c'.file ∧ (t.isZerofill = false → c.file ≤ t.offset) := by
  have haddr := (le_alignUp t hc.1).1
  have hfile := (le_alignUp t hc.2).1
  have hat := h.addr
  have hstop := h.stop
  cases hzero : t.isZerofill with
  | true =>
    have hsame := h.zerofill hzero
    exact ⟨by omega, by omega, by omega, fun hnot => (nomatch hnot)⟩
  | false =>
    obtain ⟨hoffset, hnext⟩ := h.contents hzero
    exact ⟨by omega, by omega, by omega, fun _ => by omega⟩

theorem rounded (h : PlacedAt c c' t) (hc : c.Typed) (hsize : 0 < t.size) :
    c.addr + (t.alignment - 1) ≤ U64_MAX ∧
      t.addr = (c.addr + (t.alignment - 1)) / t.alignment * t.alignment := by
  have htyped := (h.typed hc).1
  have hstop := h.stop
  have hmax : U64_MAX + 1 = 2 ^ 64 := rfl
  rw [h.addr]
  refine alignUp_of_lt t hc.1 ?_
  rw [← h.addr]
  omega

end PlacedAt

namespace Follows

variable (placed : List OutSection)

theorem bounds : ∀ {c stop : Cursor}, c.Typed → Follows c placed stop →
    stop.Typed ∧ c.addr ≤ stop.addr ∧ c.file ≤ stop.file := by
  induction placed with
  | nil =>
    intro c stop hc h
    obtain rfl : stop = c := h
    exact ⟨hc, le_rfl, le_rfl⟩
  | cons t placed ih =>
    intro c stop hc h
    obtain ⟨c', hplaced, hrest⟩ := h
    obtain ⟨hstop, haddr, hfile⟩ := ih (hplaced.typed hc) hrest
    obtain ⟨-, hle, hle', -⟩ := hplaced.le hc
    exact ⟨hstop, by omega, by omega⟩

/-- **Every section is between the cursors.** -/
theorem mem : ∀ {c stop : Cursor}, c.Typed → Follows c placed stop →
    ∀ t ∈ placed, c.addr ≤ t.addr ∧ t.addr + t.size ≤ stop.addr ∧
      (0 < t.size → t.alignment ∣ t.addr) ∧
      (t.isZerofill = false → c.file ≤ t.offset ∧ t.offset + t.size ≤ stop.file) := by
  induction placed with
  | nil => exact fun {_ _} _ _ t ht => absurd ht List.not_mem_nil
  | cons t placed ih =>
    intro c stop hc h
    obtain ⟨c', hplaced, hrest⟩ := h
    have hc' := hplaced.typed hc
    obtain ⟨-, haddr, hfile⟩ := bounds placed hc' hrest
    obtain ⟨hle, hle', hle'', hoffset⟩ := hplaced.le hc
    have hstop := hplaced.stop
    refine List.forall_mem_cons.mpr ⟨⟨hle, by omega, fun hsize => ?_, fun hzero => ?_⟩,
      fun u hu => ?_⟩
    · rw [(hplaced.rounded hc hsize).2]
      exact Nat.dvd_mul_left _ _
    · have := (hplaced.contents hzero).2
      exact ⟨hoffset hzero, by omega⟩
    · obtain ⟨hu₁, hu₂, hu₃, hu₄⟩ := ih hc' hrest u hu
      refine ⟨by omega, hu₂, hu₃, fun hzero => ?_⟩
      obtain ⟨hfirst, hlast⟩ := hu₄ hzero
      exact ⟨by omega, hlast⟩

/-- **Sections follow one another.** -/
theorem pairwise : ∀ {c stop : Cursor}, c.Typed → Follows c placed stop →
    placed.Pairwise fun s t => s.addr + s.size ≤ t.addr ∧
      (s.isZerofill = false → t.isZerofill = false → s.offset + s.size ≤ t.offset) := by
  induction placed with
  | nil => exact fun {_ _} _ _ => .nil
  | cons t placed ih =>
    intro c stop hc h
    obtain ⟨c', hplaced, hrest⟩ := h
    have hc' := hplaced.typed hc
    have hstop := hplaced.stop
    refine List.pairwise_cons.mpr ⟨fun u hu => ?_, ih hc' hrest⟩
    obtain ⟨haddr, -, -, hfile⟩ := mem placed hc' hrest u hu
    refine ⟨by omega, fun ht hu => ?_⟩
    have := (hplaced.contents ht).2
    have := (hfile hu).1
    omega

end Follows

/-! ### Positions -/

/-- Where sections end that follow one another from `start` on. -/
def endOf (start : ℕ) (sections : List OutSection) : ℕ :=
  sections.foldl (fun stop s => alignUp stop s.alignment + s.size) start

/-- Where the section behind them starts. -/
def positionOf (start : ℕ) (before : List OutSection) (s : OutSection) : ℕ :=
  alignUp (endOf start before) s.alignment

def contentsOf (sections : List OutSection) : List OutSection :=
  sections.filter fun s => !s.isZerofill

theorem endOf_cons (start : ℕ) (s : OutSection) (sections : List OutSection) :
    endOf start (s :: sections) = endOf (alignUp start s.alignment + s.size) sections := rfl

section Same

variable {sections placed : List OutSection}

theorem endOf_congr (h : List.Forall₂ SameSection sections placed) (start : ℕ) :
    endOf start placed = endOf start sections := by
  induction h generalizing start with
  | nil => rfl
  | cons hsame _ ih => rw [endOf_cons, endOf_cons, hsame.alignment, hsame.size, ih]

theorem contentsOf_same (h : List.Forall₂ SameSection sections placed) :
    List.Forall₂ SameSection (contentsOf sections) (contentsOf placed) := by
  induction h with
  | nil => exact .nil
  | @cons s t _ _ hsame _ ih =>
    rw [contentsOf, contentsOf, List.filter_cons, List.filter_cons, hsame.isZerofill]
    split
    · exact .cons hsame ih
    · exact ih

end Same

theorem contentsOf_cons (s : OutSection) (sections : List OutSection) :
    contentsOf (s :: sections) =
      if s.isZerofill = true then contentsOf sections else s :: contentsOf sections := by
  rw [contentsOf, List.filter_cons]
  cases s.isZerofill <;> rfl

theorem PlacedAt.ends (h : PlacedAt c c' t) (sections : List OutSection) :
    endOf c.addr (t :: sections) = endOf c'.addr sections ∧
      endOf c.file (contentsOf (t :: sections)) = endOf c'.file (contentsOf sections) := by
  rw [endOf_cons, ← h.addr, ← h.stop, contentsOf_cons]
  refine ⟨rfl, ?_⟩
  split
  · next hzero => rw [h.zerofill hzero]
  · next hzero =>
    obtain ⟨hoffset, hfile⟩ := h.contents (Bool.eq_false_iff.mpr hzero)
    rw [endOf_cons, ← hoffset, ← hfile]

/-- **Where the loop places sections.**  In memory a section is behind all sections before
it, and in the file behind those with contents. -/
theorem Follows.position (placed : List OutSection) : ∀ {c stop : Cursor}, Follows c placed stop →
    stop = ⟨endOf c.addr placed, endOf c.file (contentsOf placed)⟩ ∧
      ∀ (i : ℕ) (t : OutSection), placed[i]? = some t →
        t.addr = positionOf c.addr (placed.take i) t ∧ (t.isZerofill = false →
          t.offset = positionOf c.file (contentsOf (placed.take i)) t) := by
  induction placed with
  | nil =>
    intro c stop h
    obtain rfl : stop = c := h
    exact ⟨rfl, fun i t ht => (nomatch ht)⟩
  | cons t placed ih =>
    intro c stop h
    obtain ⟨c', hplaced, hrest⟩ := h
    obtain ⟨hstop, hat⟩ := ih hrest
    obtain ⟨haddr, hfile⟩ := hplaced.ends placed
    refine ⟨by rw [hstop, haddr, hfile], fun i u hu => ?_⟩
    cases i with
    | zero =>
      obtain rfl := Option.some.inj hu
      exact ⟨hplaced.addr, fun hzero => (hplaced.contents hzero).1⟩
    | succ i =>
      obtain ⟨haddr, hfile⟩ := hplaced.ends (placed.take i)
      rw [positionOf, positionOf, List.take_succ_cons, haddr, hfile]
      exact hat i u hu

end Qld.Macho
