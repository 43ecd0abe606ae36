import Qld.Elf.Addresses

/-!
# What addresses and file offsets guarantee

* `Inv` — what holds of the loop variables and the sections placed so far;
* `placeNext_inv`, `placeAll_inv` — one round keeps it, and so does the loop;
* `LaidOut` — what a loader and a reader of the file rely on;
* `assignAddresses_laidOut` — it holds of every layout.
-/

namespace Qld.Elf.Layout

open Qld.Lib

variable {o : Options} {base headers : ℕ}

/-! ### Arithmetic -/

variable {n : ℕ}

/-- The gap in front of a segment: up to the next offset that is congruent to its address, so that
no congruent offset from the file's end on is skipped. -/
theorem gap_eq {page start fileEnd x : ℕ} (hpage : page = 2 ^ n) (hn : n ≤ 64) (hle : fileEnd ≤ x)
    (hx : x % page = start % page) :
    wrappingSub (start &&& (page - 1)) (fileEnd &&& (page - 1)) &&& (page - 1) =
      (x - fileEnd) % page := by
  have hdvd : page ∣ 2 ^ 64 := hpage ▸ Nat.pow_dvd_pow 2 hn
  have hpos : 0 < page := hpage ▸ Nat.two_pow_pos n
  have hmask : ∀ v, v &&& (page - 1) = v % page := by
    intro v
    rw [hpage, Nat.and_two_pow_sub_one_eq_mod]
  have hfile := Nat.mod_lt fileEnd hpos
  have htop : page ≤ 2 ^ 64 := Nat.le_of_dvd (Nat.two_pow_pos 64) hdvd
  rw [hmask, hmask, hmask, wrappingSub, Nat.mod_mod_of_dvd _ hdvd]
  have hsum : (start % page + 2 ^ 64 - fileEnd % page) + fileEnd % page ≡
      (x - fileEnd) + fileEnd [MOD page] := by
    rw [Nat.sub_add_cancel (by omega), Nat.sub_add_cancel hle, ← hx]
    have hzero : 2 ^ 64 ≡ 0 [MOD page] := (Nat.modEq_zero_iff_dvd).mpr hdvd
    exact (Nat.mod_modEq x page).add hzero
  exact Nat.ModEq.add_right_cancel (Nat.mod_modEq fileEnd page) hsum

/-! ### RELRO -/

theorem relroBack_le {relro : List OutSection} :
    ∀ {position start : ℕ}, relroBack position relro = .ok start → start ≤ position := by
  induction relro with
  | nil => exact fun h => (Except.ok.inj h).ge
  | cons s relro ih =>
    intro position start h
    rw [relroBack] at h
    split at h
    · exact ih h
    split at h
    · exact nomatch h
    · have hand : (position - s.size) &&& not64 (max s.align 1 - 1) ≤ position - s.size :=
        Nat.and_le_left
      have := ih h
      omega

/-- A RELRO region does not start before the place it was given. -/
theorem relroStart_spec {sections : List OutSection} {start : ℕ} {region : ℕ × ℕ}
    (hstart : start < 2 ^ 64) (h : relroStart o sections start = .ok region) :
    start ≤ region.1 ∧ region.1 < 2 ^ 64 ∧ region.2 < 2 ^ 64 := by
  obtain ⟨dot, -, h⟩ := bind_eq_ok.mp h
  obtain ⟨stop, hstop, h⟩ := bind_eq_ok.mp h
  obtain ⟨position, hposition, h⟩ := bind_eq_ok.mp h
  have htop := (alignUp_spec hstop).2.1
  have hle := relroBack_le hposition
  split at h
  · obtain rfl := Except.ok.inj h
    exact ⟨by assumption, by dsimp only; omega, htop⟩
  obtain ⟨stop', hstop', h⟩ := bind_eq_ok.mp h
  obtain ⟨position', hposition', h⟩ := bind_eq_ok.mp h
  have htop' := (add_eq_ok hstop').2
  have hle' := relroBack_le hposition'
  split at h
  · obtain rfl := Except.ok.inj h
    exact ⟨by assumption, by dsimp only; omega, htop'⟩
  obtain ⟨_, -, h⟩ := bind_eq_ok.mp h
  obtain ⟨stop'', hstop'', h⟩ := bind_eq_ok.mp h
  obtain rfl := Except.ok.inj h
  exact ⟨le_rfl, hstart, (alignUp_spec hstop'').2.1⟩

/-! ### The invariant -/

/-- A segment holds the file bytes of a section. -/
def Holds (l : Segment) (s : OutSection) : Prop :=
  l.vaddr ≤ s.addr ∧ s.offset = l.offset + (s.addr - l.vaddr) ∧
    s.addr + s.size ≤ l.vaddr + l.filesz

/-- What is known of a section that was placed while the `k`-th segment was the current one. -/
structure PlacedAt (headers : ℕ) (c : Cursor) (k : ℕ) (s : OutSection) : Prop where
  aligned : max s.align 1 ∣ s.addr
  reached : s.isTbss = false → s.addr + s.size ≤ c.dot
  file : s.hasFileBytes = true → headers ≤ s.offset ∧ s.offset + s.size ≤ c.fileEnd
  held : s.hasFileBytes = true → ∃ l, c.loads[k]? = some l ∧ Holds l s

/-- The order of two sections, in memory and in the file. -/
def Before (a b : OutSection) : Prop :=
  (a.isTbss = false → b.isTbss = false → a.addr + a.size ≤ b.addr) ∧
    (a.hasFileBytes = true → b.hasFileBytes = true → a.offset + a.size ≤ b.offset)

/-- What holds of the loop variables, with the sections placed so far and their segments. -/
structure Inv (o : Options) (base headers : ℕ) (c : Cursor) (placed : List (ℕ × OutSection)) :
    Prop where
  base : base ≤ c.delta
  current : c.current.offset + c.delta = c.current.vaddr
  reached : c.current.vaddr ≤ c.dot
  file : c.fileEnd + c.delta ≤ c.dot
  top : c.dot < 2 ^ 64
  relroTop : ∀ stop ∈ c.relroEnd, stop < 2 ^ 64
  behindHeaders : headers ≤ c.fileEnd
  loads : ∀ l ∈ c.loads, l.offset % o.page = l.vaddr % o.page ∧ l.filesz ≤ l.memsz ∧
    l.vaddr + l.memsz ≤ c.dot
  pages : c.loads.Pairwise fun a b => a.vaddr + a.memsz ≤ b.vaddr / o.page * o.page
  order : placed.Pairwise fun x y => Before x.2 y.2
  each : ∀ x ∈ placed, PlacedAt headers c x.1 x.2

/-- Segments stay where they are, and grow. -/
def Grows (c d : Cursor) : Prop :=
  ∀ (k : ℕ) (l : Segment), c.loads[k]? = some l → ∃ m, d.loads[k]? = some m ∧
    m.vaddr = l.vaddr ∧ m.offset = l.offset ∧ l.filesz ≤ m.filesz

variable {c d : Cursor} {s t : OutSection}

theorem PlacedAt.mono {k : ℕ} (h : PlacedAt headers c k s) (hgrows : Grows c d)
    (hdot : c.dot ≤ d.dot) (hfile : c.fileEnd ≤ d.fileEnd) :
    PlacedAt headers d k s := by
  refine ⟨h.aligned, fun hs => (h.reached hs).trans hdot, fun hs => ?_, fun hs => ?_⟩
  · exact ⟨(h.file hs).1, (h.file hs).2.trans hfile⟩
  · obtain ⟨l, hl, hheld⟩ := h.held hs
    obtain ⟨m, hm, hvaddr, hoffset, hfilesz⟩ := hgrows k l hl
    refine ⟨m, hm, ?_⟩
    rw [Holds, hvaddr, hoffset]
    exact ⟨hheld.1, hheld.2.1, hheld.2.2.trans (Nat.add_le_add_left hfilesz _)⟩

/-! ### A new segment -/

variable {upcoming : List OutSection}

theorem loadStart_spec {start : ℕ × Option ℕ} (hrelro : ∀ stop ∈ c.relroEnd, stop < 2 ^ 64)
    (hpage : 0 < o.page) (h : loadStart o c s upcoming = .ok start) :
    c.dot ≤ start.1 ∧ c.dot ≤ start.1 / o.page * o.page ∧ start.1 < 2 ^ 64 ∧
      ∀ stop ∈ start.2, stop < 2 ^ 64 := by
  obtain ⟨vaddr, hvaddr, h⟩ := bind_eq_ok.mp h
  obtain ⟨hle, htop, hdvd, -⟩ := alignUp_spec hvaddr
  rw [Nat.max_eq_left hpage] at hdvd
  -- whatever is not below the next page boundary is on a page of its own
  have hfar : ∀ x, vaddr ≤ x → c.dot ≤ x / o.page * o.page := by
    intro x hx
    obtain ⟨q, rfl⟩ := hdvd
    have hq : q ≤ x / o.page := by
      rw [Nat.le_div_iff_mul_le hpage, Nat.mul_comm]
      exact hx
    have := Nat.mul_le_mul_right o.page hq
    rw [Nat.mul_comm q] at this
    omega
  split at h
  · obtain ⟨moved, hmoved, h⟩ := bind_eq_ok.mp h
    obtain ⟨hmoved, hmovedTop⟩ := add_eq_ok hmoved
    split at h
    · obtain ⟨region, hregion, h⟩ := bind_eq_ok.mp h
      obtain rfl := Except.ok.inj h
      obtain ⟨hstart, hregionTop, hstop⟩ := relroStart_spec hmovedTop hregion
      refine ⟨by dsimp only; omega, hfar _ (by omega), hregionTop, ?_⟩
      intro stop hmem
      rw [← Option.mem_some_iff.mp hmem]
      exact hstop
    · obtain rfl := Except.ok.inj h
      exact ⟨by dsimp only; omega, hfar _ (by omega), hmovedTop, hrelro⟩
  · obtain rfl := Except.ok.inj h
    exact ⟨hle, hfar _ le_rfl, htop, hrelro⟩

variable {placed : List (ℕ × OutSection)}

/-- **Starting a new segment.** -/
theorem openLoad_inv (hpage : o.page = 2 ^ n) (hn : n ≤ 64) (hbase : o.page ∣ base)
    (hinv : Inv o base headers c placed) (h : openLoad o c s upcoming = .ok d) :
    Inv o base headers d placed ∧ d.previous = o.perm s ∧
      d.closed.length = c.closed.length + if o.perm s = c.previous then 0 else 1 := by
  have hpos : 0 < o.page := hpage ▸ Nat.two_pow_pos n
  rw [openLoad] at h
  split at h
  · next hsame =>
    obtain rfl := Except.ok.inj h
    exact ⟨hinv, hsame.symm, by rw [if_pos hsame]; rfl⟩
  · next hsame =>
    obtain ⟨start, hstart, h⟩ := bind_eq_ok.mp h
    obtain ⟨offset, hoffset, h⟩ := bind_eq_ok.mp h
    obtain rfl := Except.ok.inj h
    obtain ⟨hdot, hfresh, htop, hrelro⟩ := loadStart_spec hinv.relroTop hpos hstart
    obtain ⟨hoffset, -⟩ := add_eq_ok hoffset
    have hfile := hinv.file
    have hdelta := hinv.base
    -- the address without the base is an offset that would do
    have hmod : (start.1 - base) % o.page = start.1 % o.page := by
      obtain ⟨q, rfl⟩ := hbase
      exact Nat.sub_mul_mod (by omega)
    rw [gap_eq hpage hn (x := start.1 - base) (by omega) hmod] at hoffset
    have hgap := Nat.mod_le (start.1 - base - c.fileEnd) o.page
    have hcong : offset % o.page = start.1 % o.page := by
      rw [hoffset, Nat.add_mod_mod, Nat.add_sub_cancel' (by omega), hmod]
    have hsub : wrappingSub start.1 offset = start.1 - offset :=
      wrappingSub_of_le (by omega) htop
    have hgrows : ∀ (k : ℕ) (l : Segment), c.loads[k]? = some l →
        (c.loads ++
          [⟨PT_LOAD, o.perm s, offset, start.1, none, 0, 0, o.page⟩])[k]? = some l := by
      intro k l hl
      rw [List.getElem?_append_left (List.getElem?_eq_some_iff.mp hl).1]
      exact hl
    refine ⟨⟨?_, ?_, le_rfl, ?_, htop, hrelro, hinv.behindHeaders, ?_, ?_, hinv.order, ?_⟩, rfl, ?_⟩
    · show base ≤ wrappingSub start.1 offset
      omega
    · show offset + wrappingSub start.1 offset = start.1
      omega
    · show c.fileEnd + wrappingSub start.1 offset ≤ start.1
      omega
    · intro l hl
      rcases List.mem_append.mp hl with hl | hl
      · obtain ⟨hcong, hsizes, hend⟩ := hinv.loads l hl
        exact ⟨hcong, hsizes, hend.trans hdot⟩
      · obtain rfl := List.mem_singleton.mp hl
        exact ⟨hcong, le_rfl, le_rfl⟩
    · refine List.pairwise_append.mpr ⟨hinv.pages, List.pairwise_singleton _ _, ?_⟩
      intro a ha b hb
      obtain rfl := List.mem_singleton.mp hb
      exact (hinv.loads a ha).2.2.trans hfresh
    · intro x hx
      refine (hinv.each x hx).mono (fun k l hl => ?_) hdot le_rfl
      exact ⟨l, hgrows k l hl, rfl, rfl, le_rfl⟩
    · rw [if_neg hsame, List.length_append, List.length_singleton]

theorem endRelro_inv (hinv : Inv o base headers c placed) :
    Inv o base headers (endRelro o c s) placed ∧ (endRelro o c s).previous = c.previous ∧
      (endRelro o c s).closed = c.closed := by
  rw [endRelro]
  split
  · exact ⟨hinv, rfl, rfl⟩
  cases hstop : c.relroEnd with
  | none => exact ⟨hinv, rfl, rfl⟩
  | some stop =>
    have htop := hinv.relroTop stop hstop
    have hdot : c.dot ≤ max c.dot stop := Nat.le_max_left _ _
    refine ⟨⟨hinv.base, hinv.current, hinv.reached.trans hdot, hinv.file.trans hdot,
      Nat.max_lt.mpr ⟨hinv.top, htop⟩, fun _ h => (nomatch h), hinv.behindHeaders, ?_, hinv.pages,
      hinv.order, ?_⟩, rfl, rfl⟩
    · intro l hl
      obtain ⟨hcong, hsizes, hend⟩ := hinv.loads l hl
      exact ⟨hcong, hsizes, hend.trans hdot⟩
    · intro x hx
      exact (hinv.each x hx).mono (fun k l hl => ⟨l, hl, rfl, rfl, le_rfl⟩) hdot le_rfl

/-! ### Placing a section -/

/-- What `place` decides. -/
structure PlaceSpec (c d : Cursor) (s t : OutSection) (address : ℕ) : Prop where
  le : c.dot ≤ address
  top : address + s.size < 2 ^ 64
  aligned : max s.align 1 ∣ address
  dot : d.dot = if s.isTbss then c.dot else address + s.size
  fileEnd : d.fileEnd =
    if s.hasFileBytes then max c.fileEnd (address - c.delta + s.size) else c.fileEnd
  delta : d.delta = c.delta
  previous : d.previous = c.previous
  closed : d.closed = c.closed
  current : d.current = segmentWith c.current s (address + s.size)
  relroEnd : d.relroEnd = c.relroEnd
  placed : t = { s with addr := address, offset := address - c.delta }

theorem place_spec (hinv : Inv o base headers c placed) (h : place o c s = .ok (d, t)) :
    ∃ address, PlaceSpec c d s t address := by
  obtain ⟨address, haddress, h⟩ := bind_eq_ok.mp h
  obtain ⟨stop, hstop, h⟩ := bind_eq_ok.mp h
  obtain ⟨rfl, rfl⟩ := Prod.mk.inj (Except.ok.inj h)
  obtain ⟨hle, htop, hdvd, -⟩ := alignUp_spec haddress
  obtain ⟨rfl, hstopTop⟩ := add_eq_ok hstop
  have hfile := hinv.file
  have hoffset : wrappingSub address c.delta = address - c.delta :=
    wrappingSub_of_le (by omega) htop
  have hsum : saturatingAdd (wrappingSub address c.delta) s.size = address - c.delta + s.size := by
    rw [hoffset]
    exact saturatingAdd_of_lt (by omega)
  refine ⟨address, hle, hstopTop, hdvd, rfl, ?_, rfl, rfl, rfl, rfl, rfl, ?_⟩
  · rw [← hsum]
  · rw [← hoffset]

theorem hasFileBytes_of_isTbss (h : s.isTbss = true) : s.hasFileBytes = false := by
  rw [OutSection.hasFileBytes, of_decide_eq_true (Bool.and_eq_true_iff.mp h).2]
  rfl

/-- The current segment covers a section that is placed, and what it held before. -/
theorem segmentWith_sizes {segment : Segment} {dot address : ℕ}
    (hsizes : segment.filesz ≤ segment.memsz) (hend : segment.vaddr + segment.memsz ≤ dot)
    (hle : dot ≤ address) :
    segment.filesz ≤ (segmentWith segment s (address + s.size)).filesz ∧
      (segmentWith segment s (address + s.size)).filesz ≤
        (segmentWith segment s (address + s.size)).memsz ∧
      segment.vaddr + (segmentWith segment s (address + s.size)).memsz ≤
        if s.isTbss then dot else address + s.size := by
  rw [segmentWith]
  dsimp only
  cases htbss : s.isTbss with
  | true =>
    rw [hasFileBytes_of_isTbss htbss]
    exact ⟨le_rfl, hsizes, hend⟩
  | false =>
    cases s.hasFileBytes with
    | true =>
      simp only [if_true, Bool.false_eq_true, if_false]
      omega
    | false =>
      simp only [Bool.false_eq_true, if_false]
      omega

/-- **Placing a section.** -/
theorem place_inv (hinv : Inv o base headers c placed) (h : place o c s = .ok (d, t)) :
    Inv o base headers d (placed ++ [(d.closed.length, t)]) := by
  obtain ⟨address, spec⟩ := place_spec hinv h
  have hle := spec.le
  have htop := spec.top
  have hfile := hinv.file
  obtain ⟨hcong, hsizes, hend⟩ :=
    hinv.loads c.current (List.mem_append_right _ (List.mem_singleton_self _))
  obtain ⟨hgrow, hsizes', hend'⟩ := segmentWith_sizes (s := s) hsizes hend hle
  have hdot : c.dot ≤ d.dot := by
    rw [spec.dot]
    split <;> omega
  have hfileEnd : c.fileEnd ≤ d.fileEnd := by
    rw [spec.fileEnd]
    split
    · exact Nat.le_max_left _ _
    · exact le_rfl
  have hloads : d.loads = c.closed ++ [segmentWith c.current s (address + s.size)] := by
    rw [Cursor.loads, spec.closed, spec.current]
  have hgrows : Grows c d := by
    intro k l hl
    rw [hloads]
    rw [Cursor.loads, List.getElem?_append] at hl
    rw [List.getElem?_append]
    split at hl
    · next hk =>
      rw [if_pos hk]
      exact ⟨l, hl, rfl, rfl, le_rfl⟩
    · next hk =>
      rw [if_neg hk, List.getElem?_singleton]
      rw [List.getElem?_singleton] at hl
      split at hl
      · next hzero =>
        obtain rfl := Option.some.inj hl
        rw [if_pos hzero]
        exact ⟨_, rfl, rfl, rfl, hgrow⟩
      · exact nomatch hl
  refine ⟨?_, ?_, ?_, ?_, ?_, ?_, hinv.behindHeaders.trans hfileEnd, ?_, ?_, ?_, ?_⟩
  · rw [spec.delta]
    exact hinv.base
  · rw [spec.current, spec.delta]
    exact hinv.current
  · rw [spec.current]
    exact hinv.reached.trans hdot
  · rw [spec.fileEnd, spec.dot, spec.delta]
    cases htbss : s.isTbss with
    | true =>
      rw [hasFileBytes_of_isTbss htbss]
      exact hfile
    | false =>
      simp only [Bool.false_eq_true, if_false]
      split <;> omega
  · rw [spec.dot]
    split
    · exact hinv.top
    · exact htop
  · rw [spec.relroEnd]
    exact hinv.relroTop
  · intro l hl
    rw [hloads] at hl
    rcases List.mem_append.mp hl with hl | hl
    · obtain ⟨hcong, hsizes, hend⟩ := hinv.loads l (List.mem_append_left _ hl)
      exact ⟨hcong, hsizes, hend.trans hdot⟩
    · obtain rfl := List.mem_singleton.mp hl
      rw [spec.dot]
      exact ⟨hcong, hsizes', hend'⟩
  · rw [hloads]
    have hpages := List.pairwise_append.mp hinv.pages
    refine List.pairwise_append.mpr ⟨hpages.1, List.pairwise_singleton _ _, ?_⟩
    intro a ha b hb
    obtain rfl := List.mem_singleton.mp hb
    exact hpages.2.2 a ha c.current (List.mem_singleton_self _)
  · refine List.pairwise_append.mpr ⟨hinv.order, List.pairwise_singleton _ _, ?_⟩
    intro x hx y hy
    obtain rfl := List.mem_singleton.mp hy
    have hx := hinv.each x hx
    rw [spec.placed]
    refine ⟨fun hxt _ => (hx.reached hxt).trans hle, fun hxf _ => ?_⟩
    show x.2.offset + x.2.size ≤ address - c.delta
    have := (hx.file hxf).2
    omega
  · intro x hx
    rcases List.mem_append.mp hx with hx | hx
    · exact (hinv.each x hx).mono hgrows hdot hfileEnd
    obtain rfl := List.mem_singleton.mp hx
    rw [spec.placed]
    have hheaders := hinv.behindHeaders
    have hcurrent := hinv.current
    have hreached := hinv.reached
    refine ⟨spec.aligned, fun (hs : s.isTbss = false) => ?_,
      fun (hs : s.hasFileBytes = true) => ?_, fun (hs : s.hasFileBytes = true) => ?_⟩
    · rw [spec.dot, if_neg (by rw [Bool.not_eq_true]; exact hs)]
    · rw [spec.fileEnd, if_pos hs]
      exact ⟨by dsimp only; omega, Nat.le_max_right _ _⟩
    · refine ⟨segmentWith c.current s (address + s.size), ?_, ?_⟩
      · rw [hloads, spec.closed, List.getElem?_append_right le_rfl, Nat.sub_self]
        rfl
      · refine ⟨hreached.trans hle, ?_, ?_⟩
        · show address - c.delta = c.current.offset + (address - c.current.vaddr)
          omega
        · show address + s.size ≤ c.current.vaddr +
            if s.hasFileBytes = true then address + s.size - c.current.vaddr else _
          rw [if_pos hs]
          omega

/-! ### The loop -/

/-- **One round of the loop.** -/
theorem placeNext_inv (hpage : o.page = 2 ^ n) (hn : n ≤ 64) (hbase : o.page ∣ base)
    (hinv : Inv o base headers c placed) (h : placeNext o c s upcoming = .ok (d, t)) :
    Inv o base headers d (placed ++ [(d.closed.length, t)]) ∧ d.previous = o.perm s ∧
      (d.closed.length = c.closed.length + if o.perm s = c.previous then 0 else 1) ∧
      ∃ addr offset, t = { s with addr := addr, offset := offset } := by
  obtain ⟨c₁, hopen, h⟩ := bind_eq_ok.mp h
  obtain ⟨hinv₁, hprevious, hlength⟩ := openLoad_inv hpage hn hbase hinv hopen
  obtain ⟨hinv₂, hprevious₂, hclosed₂⟩ := endRelro_inv (s := s) hinv₁
  obtain ⟨address, spec⟩ := place_spec hinv₂ h
  refine ⟨place_inv hinv₂ h, ?_, ?_, _, _, spec.placed⟩
  · rw [spec.previous, hprevious₂, hprevious]
  · rw [spec.closed, hclosed₂, hlength]

theorem loadChanges_take_cons (o : Options) (previous : ℕ) (s : OutSection)
    (sections : List OutSection) (hs : s.isAlloc = true) (i : ℕ) :
    loadChanges o previous ((s :: sections).take (i + 1)) =
      (if o.perm s = previous then 0 else 1) + loadChanges o (o.perm s) (sections.take i) := by
  rw [List.take_succ_cons, loadChanges, if_pos hs]
  split
  · next hsame => rw [hsame, Nat.zero_add]
  · rfl

/-- A section before and after the loop. -/
def SameSection (s t : OutSection) : Prop :=
  (s.isAlloc = false → t = s) ∧ ∃ addr offset, t = { s with addr := addr, offset := offset }

theorem placeAll_cons_eq_ok {d : Cursor} {sections final : List OutSection}
    (h : placeAll o c (s :: sections) = .ok (d, final)) :
    (s.isAlloc = true ∧ ∃ c' t rest, final = t :: rest ∧
      placeNext o c s (s :: sections.filter OutSection.isAlloc) = .ok (c', t) ∧
      placeAll o c' sections = .ok (d, rest)) ∨
    (s.isAlloc = false ∧ ∃ rest, final = s :: rest ∧ placeAll o c sections = .ok (d, rest)) := by
  rw [placeAll] at h
  split at h
  · next halloc =>
    obtain ⟨⟨c', t⟩, hnext, h⟩ := bind_eq_ok.mp h
    obtain ⟨⟨d', rest⟩, hrest, h⟩ := bind_eq_ok.mp h
    obtain ⟨rfl, rfl⟩ := Prod.mk.inj (Except.ok.inj h)
    exact .inl ⟨halloc, c', t, rest, rfl, hnext, hrest⟩
  · next halloc =>
    obtain ⟨⟨d', rest⟩, hrest, h⟩ := bind_eq_ok.mp h
    obtain ⟨rfl, rfl⟩ := Prod.mk.inj (Except.ok.inj h)
    exact .inr ⟨Bool.eq_false_iff.mpr halloc, rest, rfl, hrest⟩

/-- **The loop.**  `added` are the sections that it places. -/
theorem placeAll_inv (hpage : o.page = 2 ^ n) (hn : n ≤ 64) (hbase : o.page ∣ base)
    (sections : List OutSection) : ∀ {c d : Cursor} {placed : List (ℕ × OutSection)}
      {final : List OutSection}, Inv o base headers c placed →
      placeAll o c sections = .ok (d, final) →
      ∃ added, Inv o base headers d (placed ++ added) ∧
        added.map Prod.snd = final.filter OutSection.isAlloc ∧
        List.Forall₂ SameSection sections final ∧
        ∀ (i : ℕ) (t : OutSection), final[i]? = some t → t.isAlloc = true →
          (c.closed.length + loadChanges o c.previous (sections.take (i + 1)), t) ∈ added := by
  induction sections with
  | nil =>
    intro c d placed final hinv h
    obtain ⟨rfl, rfl⟩ := Prod.mk.inj (Except.ok.inj h)
    refine ⟨[], by rw [List.append_nil]; exact hinv, rfl, .nil, fun i t ht => (nomatch ht)⟩
  | cons s sections ih =>
    intro c d placed final hinv h
    rcases placeAll_cons_eq_ok h with
      ⟨halloc, c₁, t, rest, rfl, hnext, hrest⟩ | ⟨halloc, rest, rfl, hrest⟩
    · obtain ⟨hinv₁, hprevious, hlength, addr, offset, rfl⟩ :=
        placeNext_inv hpage hn hbase hinv hnext
      obtain ⟨added, hinv', hadded, hsame, hindex⟩ := ih hinv₁ hrest
      refine ⟨(c₁.closed.length, { s with addr := addr, offset := offset }) :: added, ?_, ?_, ?_, ?_⟩
      · rw [List.append_cons]
        exact hinv'
      · have hkeep : OutSection.isAlloc { s with addr := addr, offset := offset } = true := halloc
        rw [List.map_cons, hadded, List.filter_cons_of_pos hkeep]
      · refine .cons ⟨fun hs => ?_, addr, offset, rfl⟩ hsame
        rw [halloc] at hs
        exact nomatch hs
      · intro i t ht hta
        rw [loadChanges_take_cons _ _ _ _ halloc, ← Nat.add_assoc, ← hlength, ← hprevious]
        cases i with
        | zero =>
          obtain rfl := Option.some.inj ht
          exact List.mem_cons_self
        | succ i => exact List.mem_cons_of_mem _ (hindex i t ht hta)
    · have hnot : ¬s.isAlloc = true := Bool.eq_false_iff.mp halloc
      obtain ⟨added, hinv', hadded, hsame, hindex⟩ := ih hinv hrest
      refine ⟨added, hinv', ?_, .cons ⟨fun _ => rfl, s.addr, s.offset, rfl⟩ hsame, ?_⟩
      · rw [hadded, List.filter_cons_of_neg hnot]
      · intro i t ht hta
        cases i with
        | zero =>
          obtain rfl := Option.some.inj ht
          exact absurd hta hnot
        | succ i =>
          rw [List.take_succ_cons, loadChanges, if_neg hnot]
          exact hindex i t ht hta

/-! ### Sections that are not allocated -/

/-- **Sections that are not allocated follow one another in the file.** -/
theorem placeFile_spec (sections : List OutSection) : ∀ {fileEnd stop : ℕ}
    {final : List OutSection}, placeFile fileEnd sections = .ok (stop, final) →
      fileEnd ≤ stop ∧
      (∀ t ∈ final, t.isAlloc = false → fileEnd ≤ t.offset ∧ t.offset + t.size ≤ stop) ∧
      (final.Pairwise fun a b => a.isAlloc = false → b.isAlloc = false →
        a.offset + a.size ≤ b.offset) ∧
      final.filter OutSection.isAlloc = sections.filter OutSection.isAlloc ∧
      List.Forall₂ (fun s t => (s.isAlloc = true → t = s) ∧
        ∃ offset, t = { s with offset := offset }) sections final := by
  induction sections with
  | nil =>
    intro fileEnd stop final h
    obtain ⟨rfl, rfl⟩ := Prod.mk.inj (Except.ok.inj h)
    exact ⟨le_rfl, fun t ht => absurd ht List.not_mem_nil, .nil, rfl, .nil⟩
  | cons s sections ih =>
    intro fileEnd stop final h
    rw [placeFile] at h
    split at h
    · next halloc =>
      obtain ⟨⟨stop', rest⟩, hrest, h⟩ := bind_eq_ok.mp h
      obtain ⟨rfl, rfl⟩ := Prod.mk.inj (Except.ok.inj h)
      obtain ⟨hle, hinside, hpair, hfilter, hsame⟩ := ih hrest
      refine ⟨hle, List.forall_mem_cons.mpr ⟨fun hs => ?_, hinside⟩,
        List.pairwise_cons.mpr ⟨fun b _ hs => ?_, hpair⟩, ?_,
        .cons ⟨fun _ => rfl, s.offset, rfl⟩ hsame⟩
      · rw [halloc] at hs
        exact nomatch hs
      · rw [halloc] at hs
        exact nomatch hs
      · rw [List.filter_cons_of_pos halloc, List.filter_cons_of_pos halloc, hfilter]
    · next halloc =>
      obtain ⟨offset, hoffset, h⟩ := bind_eq_ok.mp h
      obtain ⟨behind, hbehind, h⟩ := bind_eq_ok.mp h
      obtain ⟨⟨stop', rest⟩, hrest, h⟩ := bind_eq_ok.mp h
      obtain ⟨rfl, rfl⟩ := Prod.mk.inj (Except.ok.inj h)
      obtain ⟨hle, hinside, hpair, hfilter, hsame⟩ := ih hrest
      have hstart := (alignUp_spec hoffset).1
      obtain ⟨hbehind, -⟩ := add_eq_ok hbehind
      dsimp only at hle hinside ⊢
      refine ⟨by omega, List.forall_mem_cons.mpr ⟨fun _ => ⟨hstart, by dsimp only; omega⟩, ?_⟩,
        List.pairwise_cons.mpr ⟨fun b hb _ hbn => ?_, hpair⟩, ?_,
        .cons ⟨fun hs => absurd hs halloc, offset, rfl⟩ hsame⟩
      · intro t ht hta
        obtain ⟨hlow, hhigh⟩ := hinside t ht hta
        exact ⟨by omega, hhigh⟩
      · have := (hinside b hb hbn).1
        dsimp only
        omega
      · have hskip : ¬ OutSection.isAlloc { s with offset := offset } = true := halloc
        rw [List.filter_cons_of_neg hskip, List.filter_cons_of_neg halloc, hfilter]

/-! ### The result -/

/-- A page of memory belongs to a segment. -/
def OnPage (page : ℕ) (l : Segment) (number : ℕ) : Prop :=
  ∃ a, l.vaddr ≤ a ∧ a < l.vaddr + l.memsz ∧ a / page = number

/-- What a loader and a reader of the file rely on. -/
structure LaidOut (o : Options) (sections : List OutSection) (image : Image) : Prop where
  same : image.sections.length = sections.length ∧ ∀ (i : ℕ) (t : OutSection),
    image.sections[i]? = some t → ∃ s addr offset lma, sections[i]? = some s ∧
      t = { s with addr := addr, offset := offset, lma := lma }
  aligned : ∀ s ∈ image.sections, s.isAlloc = true → max s.align 1 ∣ s.addr
  increasing : image.sections.Pairwise fun a b => a.isAlloc = true → b.isAlloc = true →
    a.isTbss = false → b.isTbss = false → a.addr + a.size ≤ b.addr
  /-- Sections with file bytes are in the segment that was current. -/
  held : ∀ (i : ℕ) (s : OutSection), image.sections[i]? = some s → s.isAlloc = true →
    s.hasFileBytes = true →
    ∃ l, image.loads[loadCount o (sections.take (i + 1)) - 1]? = some l ∧ Holds l s
  sizes : ∀ l ∈ image.loads, l.filesz ≤ l.memsz
  congruent : ∀ l ∈ image.loads, l.offset ≡ l.vaddr [MOD o.page]
  inside : ∀ s ∈ image.sections, s.hasFileBytes = true →
    image.headers ≤ s.offset ∧ s.offset + s.size ≤ image.shoff
  end_le : image.headers ≤ image.shoff ∧ image.shoff ≤ image.fileSize
  apart : image.sections.Pairwise fun a b => a.hasFileBytes = true → b.hasFileBytes = true →
    a.offset + a.size ≤ b.offset ∨ b.offset + b.size ≤ a.offset
  pages : image.loads.Pairwise fun l m => ∀ number,
    ¬ (OnPage o.page l number ∧ OnPage o.page m number)

theorem initial_inv {dot : ℕ} (hbase : o.page ∣ base) (hdot : add base headers = .ok dot) :
    Inv o base headers (initial o base headers dot) [] := by
  obtain ⟨hdot, htop⟩ := add_eq_ok hdot
  refine ⟨le_rfl, Nat.zero_add _, ?_, ?_, htop, fun _ h => (nomatch h), le_rfl, ?_,
    List.pairwise_singleton _ _, .nil, fun x hx => absurd hx List.not_mem_nil⟩
  · show base ≤ dot
    omega
  · show headers + base ≤ dot
    omega
  · intro l hl
    obtain rfl := List.mem_singleton.mp hl
    refine ⟨?_, le_rfl, hdot.ge⟩
    show 0 % o.page = base % o.page
    rw [Nat.zero_mod, Nat.mod_eq_zero_of_dvd hbase]

/-- Segments that start on pages of their own share no page. -/
theorem not_onPage {page : ℕ} {l m : Segment} (hpos : 0 < page)
    (h : l.vaddr + l.memsz ≤ m.vaddr / page * page) (number : ℕ) :
    ¬ (OnPage page l number ∧ OnPage page m number) := by
  rintro ⟨⟨a, -, ha, rfl⟩, b, hb, -, hsame⟩
  have hlt : a / page < m.vaddr / page := by
    rw [Nat.div_lt_iff_lt_mul hpos]
    omega
  have hle := Nat.div_le_div_right (c := page) hb
  omega

/-- **Addresses and file offsets fit together (proved).** -/
theorem assignAddresses_laidOut (n : ℕ) (o : Options) (sections : List OutSection) (image : Image)
    (hpage : o.page = 2 ^ n) (hn : n < 64) (hbase : o.page ∣ o.base)
    (h : assignAddresses o sections = .ok image) : LaidOut o sections image := by
  have hpos : 0 < o.page := hpage ▸ Nat.two_pow_pos n
  obtain ⟨base, hbase', h⟩ := bind_eq_ok.mp h
  obtain ⟨headers, -, h⟩ := bind_eq_ok.mp h
  obtain ⟨dot, hdot, h⟩ := bind_eq_ok.mp h
  obtain ⟨⟨c, placed⟩, hplaced, h⟩ := bind_eq_ok.mp h
  obtain ⟨stop, -, h⟩ := bind_eq_ok.mp h
  obtain ⟨⟨fileEnd, file⟩, hfile, h⟩ := bind_eq_ok.mp h
  obtain ⟨shoff, hshoff, h⟩ := bind_eq_ok.mp h
  obtain ⟨fileSize, hfileSize, h⟩ := bind_eq_ok.mp h
  obtain rfl := Except.ok.inj h
  obtain rfl : base = o.base := by
    obtain ⟨hle, -, -, hleast⟩ := alignUp_spec hbase'
    exact Nat.le_antisymm (hleast _ le_rfl (one_dvd _)) hle
  obtain ⟨added, hinv, hadded, hsame, hindex⟩ :=
    placeAll_inv hpage hn.le hbase sections (initial_inv hbase hdot) hplaced
  obtain ⟨hfileLe, hinside, hnonalloc, hfilter, hfileSame⟩ := placeFile_spec placed hfile
  have hend : c.fileEnd ≤ fileEnd := (Nat.le_max_right _ _).trans hfileLe
  have hshoffLe := (alignUp_spec hshoff).1
  have hheaders := hinv.behindHeaders
  rw [List.nil_append] at hinv
  -- the allocated sections are where the loop put them
  have hat : ∀ (i : ℕ) (t : OutSection), file[i]? = some t → t.isAlloc = true →
      PlacedAt headers c (loadCount o (sections.take (i + 1)) - 1) t := by
    intro i t ht halloc
    obtain ⟨s, hs, hsame, offset, hst⟩ := getElem?_of_forall₂ hfileSame i t ht
    have hts := hsame (by rw [hst] at halloc; exact halloc)
    rw [← hts] at hs
    have hmem := hindex i t hs halloc
    rw [loadCount, Nat.add_sub_cancel_left]
    have hplacedAt := hinv.each _ hmem
    rw [show (initial o o.base headers dot).closed.length = 0 from rfl, Nat.zero_add] at hplacedAt
    exact hplacedAt
  have hallocEnd : ∀ t ∈ file, t.isAlloc = true → t.hasFileBytes = true →
      t.offset + t.size ≤ c.fileEnd := by
    intro t ht halloc hbytes
    obtain ⟨i, hi⟩ := List.getElem?_of_mem ht
    exact ((hat i t hi halloc).file hbytes).2
  have hnonallocStart : ∀ t ∈ file, t.isAlloc = false → c.fileEnd ≤ t.offset :=
    fun t ht halloc => (Nat.le_max_right _ _).trans (hinside t ht halloc).1
  have hrange : ∀ t ∈ file, t.hasFileBytes = true →
      headers ≤ t.offset ∧ t.offset + t.size ≤ shoff := by
    intro t ht hbytes
    cases halloc : t.isAlloc with
    | true =>
      obtain ⟨i, hi⟩ := List.getElem?_of_mem ht
      have := (hat i t hi halloc).file hbytes
      omega
    | false =>
      have := hnonallocStart t ht halloc
      have := (hinside t ht halloc).2
      omega
  have hbefore : file.Pairwise fun a b => a.isAlloc = true → b.isAlloc = true → Before a b := by
    rw [← List.pairwise_filter, hfilter, ← hadded, List.pairwise_map]
    exact hinv.order
  refine ⟨?_, ?_, ?_, ?_, fun l hl => (hinv.loads l hl).2.1, fun l hl => (hinv.loads l hl).1, ?_, ?_,
    ?_, ?_⟩
  · refine ⟨by rw [List.length_map, ← hfileSame.length_eq, ← hsame.length_eq], fun i t ht => ?_⟩
    rw [List.getElem?_map, Option.map_eq_some_iff] at ht
    obtain ⟨u, hu, rfl⟩ := ht
    obtain ⟨v, hv, -, offset, rfl⟩ := getElem?_of_forall₂ hfileSame i u hu
    obtain ⟨s, hs, -, addr, offset', rfl⟩ := getElem?_of_forall₂ hsame i v hv
    exact ⟨s, addr, offset, addr, hs, rfl⟩
  · intro s hs
    obtain ⟨t, ht, rfl⟩ := List.mem_map.mp hs
    obtain ⟨i, hi⟩ := List.getElem?_of_mem ht
    exact fun halloc => (hat i t hi halloc).aligned
  · rw [List.pairwise_map]
    exact hbefore.imp fun h ha hb => (h ha hb).1
  · intro i s hs halloc hbytes
    rw [List.getElem?_map, Option.map_eq_some_iff] at hs
    obtain ⟨t, ht, rfl⟩ := hs
    exact (hat i t ht halloc).held hbytes
  · intro s hs hbytes
    obtain ⟨t, ht, rfl⟩ := List.mem_map.mp hs
    exact hrange t ht hbytes
  · exact ⟨by dsimp only; omega, by have := (add_eq_ok hfileSize).1; dsimp only; omega⟩
  · rw [List.pairwise_map]
    refine (hbefore.and hnonalloc).imp_of_mem fun {a b} ha hb hab hfa hfb => ?_
    cases hca : a.isAlloc with
    | true =>
      cases hcb : b.isAlloc with
      | true => exact .inl ((hab.1 hca hcb).2 hfa hfb)
      | false => exact .inl ((hallocEnd a ha hca hfa).trans (hnonallocStart b hb hcb))
    | false =>
      cases hcb : b.isAlloc with
      | true => exact .inr ((hallocEnd b hb hcb hfb).trans (hnonallocStart a ha hca))
      | false => exact .inl (hab.2 hca hcb)
  · exact hinv.pages.imp fun h number => not_onPage hpos h number

/-- Code, thread-local and RELRO data, zeros, and a section outside memory. -/
def sampleSections : List OutSection :=
  [⟨0, 1, 6, 0, 0, 100, 16, 0⟩, ⟨1, 1, 0x403, 0, 0, 12, 8, 0⟩, ⟨2, 8, 0x403, 0, 0, 64, 8, 0⟩,
    ⟨3, 1, 3, 0, 0, 40, 8, 0⟩, ⟨4, 8, 3, 0, 0, 5000, 32, 0⟩, ⟨5, 1, 0, 0, 0, 77, 1, 0⟩]

def sampleOptions : Options :=
  ⟨.elf64Le, .code, true, fun output => output < 3, 0x1000, 0x400000, 3⟩

theorem assignAddresses_sample : ∃ image, assignAddresses sampleOptions sampleSections = .ok image ∧
    LaidOut sampleOptions sampleSections image :=
  ⟨_, rfl, assignAddresses_laidOut 12 _ _ _ rfl (by decide) (by decide) rfl⟩

end Qld.Elf.Layout
