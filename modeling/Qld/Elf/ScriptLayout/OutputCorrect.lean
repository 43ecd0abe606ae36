import Mathlib.Data.List.Pairwise
import Qld.Elf.ScriptLayout.OutputSteps

/-!
# Where the items of an output section go

* `Members`, `members_buildEntries` — the descriptions and alignments of the members;
* `members_buildProgram` — a program places every member once, in order;
* `LaidOut` — what the recorded offsets promise of an output section;
* `outputItems_laidOut` — they do, unless the address space wraps.
-/

namespace Qld.Elf.ScriptLayout

open Qld.Lib Qld.Script

/-! ### Programs -/

/-- What `build_entries` promises of the members of an output section. -/
structure Members (entries : List Entry) : Prop where
  sub_lt : ∀ entry ∈ entries, entry.sub < 2 ^ 16
  align_pos : ∀ entry ∈ entries, 1 ≤ entry.align

theorem members_buildEntries {build : Build} (hinputs : ∀ s ∈ build.inputs, s.sub < 2 ^ 16)
    (hsynthetic : ∀ s ∈ build.synthetic, s.sub < 2 ^ 16) (output : ℕ) :
    Members (build.buildEntries output) := by
  have hmember : ∀ x ∈ build.members output, x.1.sub < 2 ^ 16 ∧ 1 ≤ x.1.align := by
    intro x hx
    rw [Build.members, List.mem_append, List.mem_append] at hx
    rcases hx with (hx | hx) | hx
    · obtain ⟨s, hs, rfl⟩ := List.mem_map.mp hx
      exact ⟨hinputs s (List.mem_filter.mp hs).1, le_max_right _ _⟩
    · obtain ⟨s, hs, rfl⟩ := List.mem_map.mp hx
      exact ⟨hsynthetic s (List.mem_filter.mp hs).1, le_max_right _ _⟩
    · cases hend : build.ehFrameEnd with
      | none =>
        rw [hend] at hx
        exact nomatch hx
      | some mark =>
        rw [hend] at hx
        rw [List.mem_singleton.mp (List.mem_ite_nil_right.mp hx).2]
        exact ⟨(by decide : 2 ^ 16 - 1 < 2 ^ 16), le_max_right _ _⟩
  have hentry : ∀ entry ∈ build.buildEntries output, entry.sub < 2 ^ 16 ∧ 1 ≤ entry.align := by
    intro entry hentry
    obtain ⟨x, hx, rfl⟩ := List.mem_map.mp hentry
    exact hmember x (List.mem_mergeSort.mp hx)
  exact ⟨fun entry h => (hentry entry h).1, fun entry h => (hentry entry h).2⟩

/-- The members that a step places. -/
def Step.members : Step → List ℕ
  | .run start stop => List.range' start (stop - start)
  | .item _ => []

theorem filterMap_stepOrder (s : Step × ℕ) :
    (stepOrder s).filterMap Content.member? = s.1.members := by
  obtain ⟨step, k⟩ := s
  cases step with
  | run start stop =>
    show ((List.range' start (stop - start)).map Content.member).filterMap Content.member? = _
    rw [List.filterMap_map]
    exact List.filterMap_some
  | item item =>
    cases item with
    | input _ | assign _ _ | fill _ | assert _ _ => rfl
    | data _ _ _ | asciz _ | linkerVersion => rfl

theorem filterMap_programOrder (program : List Step) :
    (programOrder program).filterMap Content.member? = program.flatMap Step.members := by
  have hgen (steps : List (Step × ℕ)) : (steps.flatMap stepOrder).filterMap Content.member? =
      (steps.map Prod.fst).flatMap Step.members := by
    induction steps with
    | nil => rfl
    | cons s steps ih =>
      rw [List.flatMap_cons, List.filterMap_append, filterMap_stepOrder, ih, List.map_cons,
        List.flatMap_cons]
  rw [programOrder, hgen, List.zipIdx_map_fst]

theorem membersBefore_le (entries : List Entry) (sub : ℕ) :
    membersBefore entries sub ≤ entries.length :=
  (List.takeWhile_sublist _).length_le

theorem membersBefore_mono (entries : List Entry) {a b : ℕ} (h : a ≤ b) :
    membersBefore entries a ≤ membersBefore entries b := by
  unfold membersBefore partitionPoint
  induction entries with
  | nil => exact Nat.le_refl _
  | cons e entries ih =>
    rw [List.takeWhile_cons, List.takeWhile_cons]
    by_cases ha : e.sub < a
    · have hb : e.sub < b := by omega
      simpa [ha, hb] using ih
    · simp [ha]

theorem membersBefore_zero (entries : List Entry) : membersBefore entries 0 = 0 := by
  cases entries with
  | nil => rfl
  | cons e entries => rfl

theorem membersBefore_all {entries : List Entry} {sub : ℕ} (h : ∀ e ∈ entries, e.sub < sub) :
    membersBefore entries sub = entries.length := by
  unfold membersBefore partitionPoint
  induction entries with
  | nil => rfl
  | cons e entries ih =>
    have he := h e List.mem_cons_self
    rw [List.takeWhile_cons_of_pos (by exact decide_eq_true he), List.length_cons,
      ih fun x hx => h x (List.mem_cons_of_mem _ hx), List.length_cons]

theorem range_append {a b : ℕ} (h : a ≤ b) :
    List.range a ++ List.range' a (b - a) = List.range b := by
  have happend : List.range' 0 a ++ List.range' (0 + a) (b - a) = List.range' 0 (a + (b - a)) :=
    List.range'_append_1
  rw [Nat.zero_add, Nat.add_sub_cancel' h] at happend
  rw [List.range_eq_range', List.range_eq_range', happend]

theorem flatMap_items (entries : List Entry) (items : List Item) :
    (items.map (stepOf entries)).flatMap Step.members =
      (items.filterMap Item.index?).flatMap fun i =>
        List.range' (membersBefore entries i)
          (membersBefore entries (i + 1) - membersBefore entries i) := by
  induction items with
  | nil => rfl
  | cons item items ih =>
    rw [List.map_cons, List.flatMap_cons, ih]
    cases item with
    | input i =>
      have hmax := Nat.max_eq_left (membersBefore_mono entries (Nat.le_succ i))
      show List.range' _ (max (membersBefore entries (i + 1)) (membersBefore entries i) - _) ++ _
        = _
      rw [hmax]
      rfl
    | assign _ _ | data _ _ _ | fill _ | asciz _ | linkerVersion | assert _ _ => rfl

theorem flatMap_range (entries : List Entry) (n : ℕ) :
    ((List.range n).flatMap fun i => List.range' (membersBefore entries i)
      (membersBefore entries (i + 1) - membersBefore entries i)) =
      List.range (membersBefore entries n) := by
  induction n with
  | zero => rw [membersBefore_zero]; rfl
  | succ n ih =>
    rw [List.range_succ, List.flatMap_append, ih, List.flatMap_singleton]
    exact range_append (membersBefore_mono entries (Nat.le_succ n))

theorem foldl_max (items : List Item) (acc : ℕ) :
    (items.map inputsOf).foldl max acc =
      ((items.filterMap Item.index?).map (· + 1)).foldl max acc := by
  induction items generalizing acc with
  | nil => rfl
  | cons item items ih =>
    rw [List.map_cons, List.foldl_cons, ih]
    cases item with
    | input i => rfl
    | assign _ _ | data _ _ _ | fill _ | asciz _ | linkerVersion | assert _ _ =>
      exact congrArg (List.foldl max · _) (Nat.max_zero acc)

theorem foldl_max_range (n : ℕ) : ((List.range n).map (· + 1)).foldl max 0 = n := by
  induction n with
  | zero => rfl
  | succ n ih =>
    rw [List.range_succ, List.map_append, List.foldl_append, ih]
    exact Nat.max_eq_right (Nat.le_succ n)

/-- **A program places every member once, in order.** -/
theorem members_buildProgram (stmt : OutputStmt) {entries : List Entry} (h : Members entries) :
    (programOrder (buildProgram stmt.items entries)).filterMap Content.member? =
      List.range entries.length := by
  obtain ⟨n, hn⟩ : ∃ n, n = (stmt.items.filterMap Item.index?).length := ⟨_, rfl⟩
  have hnumbered : stmt.items.filterMap Item.index? = List.range n := hn ▸ stmt.numbered
  have hlt : n < 2 ^ 16 := hn ▸ stmt.count_lt
  have hinputs : (stmt.items.map inputsOf).foldl max 0 = n := by
    rw [foldl_max, hnumbered, foldl_max_range]
  have hall : membersBefore entries U32_MAX = entries.length :=
    membersBefore_all fun entry hentry => (h.sub_lt entry hentry).trans (by decide)
  have hle := membersBefore_le entries n
  have htail : range entries (min n (2 ^ 16 - 1)) U32_MAX =
      (membersBefore entries n, entries.length) := by
    rw [range, Nat.min_eq_left (by omega), hall, Nat.max_eq_left hle]
  rw [filterMap_programOrder, buildProgram, hinputs, htail, List.flatMap_append, flatMap_items,
    hnumbered, flatMap_range]
  dsimp only
  split
  · rw [List.flatMap_singleton]
    exact range_append hle
  · next hge =>
    rw [List.flatMap_nil, List.append_nil, Nat.le_antisymm hle (Nat.le_of_not_lt hge)]

/-! ### The result -/

/-- What the recorded offsets promise of an output section, `out`, with its members: what is
`placed` in it stands in order inside of it, and the padding stands between. -/
structure LaidOut (link : Link) (sec : Section) (program : List Step) (entries : List Entry)
    (out : OutState) (placed : List Placed) : Prop where
  /-- The members and data items are those of the program, in its order. -/
  order : placed.filterMap Placed.asked = programOrder program
  members : (programOrder program).filterMap Content.member? = List.range entries.length
  stands : ∀ p ∈ placed, Stands sec entries p
  data : placed.filterMap Placed.data? = out.data.map fun d => (d.1, d.2.length)
  pools : placed.filterMap Placed.pool? =
    out.pools.map fun p => (p.2.2, link.thunks.sizeOf sec.index p.1)
  no_fill : ∀ p ∈ placed, p.isFill = false
  inside : ∀ p ∈ placed, p.offset + p.size ≤ out.size
  ascend : placed.Pairwise fun p q => p.offset + p.size ≤ q.offset
  fills_inside : ∀ f ∈ out.fills, f.1 + f.2.1 ≤ out.size
  fills_ascend : out.fills.Pairwise fun f g => f.1 + f.2.1 ≤ g.1
  gaps : ∀ f ∈ out.fills, ∀ p ∈ placed, f.1 + f.2.1 ≤ p.offset ∨ p.offset + p.size ≤ f.1

theorem Placed.of_isFill {p : Placed} (h : p.isFill = true) :
    p.asked = none ∧ p.data? = none ∧ p.pool? = none := by
  obtain ⟨what, offset, size⟩ := p
  cases what with
  | fill pattern => exact ⟨rfl, rfl, rfl⟩
  | member _ | data _ | pool => cases h

theorem filterMap_content {β : Type} (f : Placed → Option β)
    (hf : ∀ p, p.isFill = true → f p = none) (log : List Placed) :
    (log.filter fun p => !p.isFill).filterMap f = log.filterMap f := by
  rw [List.filterMap_filter]
  refine List.filterMap_congr fun p _ => ?_
  cases hp : p.isFill with
  | true => exact (hf p hp).symm
  | false => rfl

theorem fills_run (log : List Placed) :
    (log.filterMap Placed.fill?).map (fun f => (f.1, f.2.1)) =
      (log.filter Placed.isFill).map Placed.run := by
  induction log with
  | nil => rfl
  | cons p log ih =>
    obtain ⟨what, offset, size⟩ := p
    cases what with
    | member _ | data _ | pool => exact ih
    | fill pattern => exact congrArg _ ih

theorem mem_fills {log : List Placed} {f : ℕ × ℕ × ℕ} (hf : f ∈ log.filterMap Placed.fill?) :
    ∃ p ∈ log, p.isFill = true ∧ p.run = (f.1, f.2.1) := by
  have hmem : (f.1, f.2.1) ∈ (log.filter Placed.isFill).map Placed.run :=
    fills_run log ▸ List.mem_map_of_mem hf
  obtain ⟨p, hp, hrun⟩ := List.mem_map.mp hmem
  exact ⟨p, (List.mem_filter.mp hp).1, (List.mem_filter.mp hp).2, hrun⟩

section Result

variable {link : Link} {sec : Section} {stmt : OutputStmt} {e : Engine} {entries : List Entry}

theorem laid_start (stmt : OutputStmt) (hfinal : e.finalPass = true) (hvma : sec.vma < 2 ^ 64)
    (hentries : e.entries[sec.index]? = some entries) (hout : sec.index < e.outs.length) :
    Laid link sec e.errors stmt.fill.isSome entries [] (e.start link sec stmt) [] := by
  obtain ⟨fill, t, hkept, hfill, hstart⟩ : ∃ fill t, Kept e t ∧
      (stmt.fill.isSome = true → t.errors = e.errors → fill.isSome) ∧
      e.start link sec stmt = ⟨{ t.modifyOut sec.index fun out =>
          { out with vma := sec.vma, align := sec.align, fills := [], data := [], pools := [] } with
        dot := sec.vma
        current := some sec.index }, fill, [], 0, false⟩ := by
    cases hstmt : stmt.fill with
    | none =>
      refine ⟨none, e, .refl e, fun h => absurd h Bool.false_ne_true, ?_⟩
      rw [Engine.start, hstmt]
    | some fill =>
      obtain ⟨hkept, hsome⟩ := fillValue_kept link e fill sec.index
      refine ⟨_, _, hkept, fun _ => hsome hfinal, ?_⟩
      rw [Engine.start, hstmt]
  rw [hstart]
  refine ⟨rfl, hkept.finalPass.trans hfinal, ?_, rfl, ⟨entries, ?_, rfl, ?_⟩, rfl, Nat.le_refl _,
    hvma, Nat.zero_le _, hkept.errors, ?_⟩
  · have hget : t.outs[sec.index]? = some e.outs[sec.index] := by
      rw [hkept.outs, List.getElem?_eq_getElem hout]
    show Option.map _ ((t.outs.modify sec.index _)[sec.index]?) = _
    rw [List.getElem?_modify_eq, hget]
    rfl
  · show t.entries[sec.index]? = _
    rw [hkept.entries]
    exact hentries
  · exact fun p hp => absurd hp List.not_mem_nil
  · intro hon heq
    exact ⟨hfill hon heq, (Nat.sub_self _).symm⟩

theorem Laid.laidOut {errors₀ : List (Span × Failure)} {filled : Bool} {program : List Step}
    {w : Walk} {log : List Placed} {entries' : List Entry}
    (h : Laid link sec errors₀ filled entries (programOrder program) w log)
    (horder : (programOrder program).filterMap Content.member? = List.range entries.length)
    (out : OutState) (hfills : out.fills = log.filterMap Placed.fill?)
    (hdata : out.data.map (fun d => (d.1, d.2.length)) = log.filterMap Placed.data?)
    (hpools : out.pools = w.pools) (hsize : out.size = w.engine.dot - sec.vma)
    (hlen : entries'.length = entries.length) (hstands : ∀ p ∈ log, Stands sec entries' p) :
    LaidOut link sec program entries' out (log.filter fun p => !p.isFill) := by
  have hsub := List.filter_sublist (p := fun p => !p.isFill) (l := log)
  have hpair : log.Pairwise fun p q => p.offset + p.size ≤ q.offset :=
    List.pairwise_map.mp h.ascend.pairwise
  have hinside (p : Placed) (hp : p ∈ log) : p.offset + p.size ≤ out.size := by
    rw [hsize]
    exact (h.ascend.mem (List.mem_map_of_mem hp)).2
  have hsym : Std.Symm fun p q : Placed => p.offset + p.size ≤ q.offset ∨
      q.offset + q.size ≤ p.offset := ⟨fun _ _ => Or.symm⟩
  have hapart : log.Pairwise fun p q => p.offset + p.size ≤ q.offset ∨
      q.offset + q.size ≤ p.offset := hpair.imp Or.inl
  have hfillPair : (out.fills.map fun f => (f.1, f.2.1)).Pairwise fun f g => f.1 + f.2 ≤ g.1 := by
    rw [hfills, fills_run]
    exact List.pairwise_map.mpr (hpair.sublist List.filter_sublist)
  refine ⟨?_, hlen ▸ horder, fun p hp => hstands p (hsub.subset hp), ?_, ?_, ?_,
    fun p hp => hinside p (hsub.subset hp), hpair.sublist hsub, ?_, List.pairwise_map.mp hfillPair,
    ?_⟩
  · rw [filterMap_content _ fun p hp => (Placed.of_isFill hp).1, h.order]
  · rw [hdata, filterMap_content _ fun p hp => (Placed.of_isFill hp).2.1]
  · rw [hpools, h.pools, filterMap_content _ fun p hp => (Placed.of_isFill hp).2.2]
  · intro p hp
    exact Bool.not_eq_true' _ ▸ (List.mem_filter.mp hp).2
  · intro f hf
    obtain ⟨p, hp, -, hrun⟩ := mem_fills (hfills ▸ hf)
    have hin := hinside p hp
    rw [Placed.run, Prod.mk.injEq] at hrun
    rw [← hrun.1, ← hrun.2]
    exact hin
  · intro f hf q hq
    obtain ⟨p, hp, hfill, hrun⟩ := mem_fills (hfills ▸ hf)
    have hne : p ≠ q := by
      rintro rfl
      simp [hfill] at hq
    rw [Placed.run, Prod.mk.injEq] at hrun
    rw [← hrun.1, ← hrun.2]
    exact hapart.forall hp (hsub.subset hq) hne

/-- **The items of an output section (proved).**  Unless the address space wraps, members, data
items and thunk pools stand inside the section in the order of its program, each member at a
multiple of its alignment, with padding recorded between them.  With a default fill and no error,
every other byte is in one padding. -/
theorem outputItems_laidOut (hfinal : e.finalPass = true) (hvma : sec.vma < 2 ^ 64)
    (hentries : e.entries[sec.index]? = some entries) (hmembers : Members entries)
    (hout : sec.index < e.outs.length) (hwrap : (e.walk link sec stmt).wrapped = false) :
    ∃ out entries' placed,
      (e.outputItems link sec stmt).outs[sec.index]? = some out ∧ out.vma = sec.vma ∧
      (e.outputItems link sec stmt).entries[sec.index]? = some entries' ∧
      entries'.map (fun m => { m with offset := 0 }) =
        entries.map (fun m => { m with offset := 0 }) ∧
      LaidOut link sec (buildProgram stmt.items entries) entries' out placed ∧
      (stmt.fill.isSome → (e.outputItems link sec stmt).errors = e.errors →
        ∀ o < out.size, (∀ p ∈ placed, ¬(p.offset ≤ o ∧ o < p.offset + p.size)) →
          out.fills.countP (fun f => decide (f.1 ≤ o ∧ o < f.1 + f.2.1)) = 1) := by
  obtain ⟨program, hprogram⟩ : ∃ program, program = buildProgram stmt.items entries := ⟨_, rfl⟩
  have horder := members_buildProgram stmt hmembers
  rw [← hprogram] at horder
  have hwalk : e.walk link sec stmt = program.zipIdx.foldl
      (fun w s => w.step link sec (lastRun link.pooled entries program) s)
      (e.start link sec stmt) := by
    have hget : e.entries.getD sec.index [] = entries := by
      rw [List.getD_eq_getElem?_getD, hentries]
      rfl
    rw [Engine.walk, hget, hprogram]
  have hlt (i : ℕ) (hi : .member i ∈ program.zipIdx.flatMap stepOrder) : i < entries.length := by
    have hmem : i ∈ (programOrder program).filterMap Content.member? :=
      List.mem_filterMap.mpr ⟨_, hi, rfl⟩
    rw [horder] at hmem
    exact List.mem_range.mp hmem
  have hnodup : (([] ++ program.zipIdx.flatMap stepOrder).filterMap Content.member?).Nodup := by
    show ((programOrder program).filterMap Content.member?).Nodup
    rw [horder]
    exact List.nodup_range
  obtain ⟨log, h⟩ := laid_steps (lastRun link.pooled entries program) hmembers.align_pos
    program.zipIdx (laid_start stmt hfinal hvma hentries hout) hlt hnodup (hwalk ▸ hwrap)
  rw [← hwalk, List.nil_append] at h
  obtain ⟨entries', hget, hmap, hstands⟩ := h.entries
  have hview := h.view
  rw [Engine.view] at hview
  obtain ⟨out, hgetOut, heq⟩ := Option.map_eq_some_iff.mp hview
  simp only [Prod.mk.injEq] at heq
  have hlen : entries'.length = entries.length := by
    have hlen := congrArg List.length hmap
    rwa [List.length_map, List.length_map] at hlen
  obtain ⟨out', hout'⟩ : ∃ out' : OutState, out' = { out with
      size := wrappingSub (e.walk link sec stmt).engine.dot sec.vma
      pools := (e.walk link sec stmt).pools } := ⟨_, rfl⟩
  have hitems : (e.outputItems link sec stmt).outs[sec.index]? = some out' := by
    show (List.modify _ sec.index _)[sec.index]? = _
    rw [List.getElem?_modify_eq, hgetOut, hout']
    rfl
  have hfills : out'.fills = log.filterMap Placed.fill? := by
    rw [hout']
    exact heq.2.1
  rw [← hprogram]
  refine ⟨out', entries', _, hitems, by rw [hout']; exact heq.1, hget, hmap,
    h.laidOut horder out' hfills (by rw [hout']; exact heq.2.2) (by rw [hout'])
      (by rw [hout']; exact h.offset_eq) hlen hstands, ?_⟩
  intro hfill herrors o ho hgap
  have htiles := (h.tiles hfill herrors).2
  have hsize : out'.size = (e.walk link sec stmt).engine.dot - sec.vma := by
    rw [hout']
    exact h.offset_eq
  rw [← hsize] at htiles
  have hone := gap_countP Placed.isFill htiles ho fun p hp hcontent => hgap p
    (List.mem_filter.mpr ⟨hp, by rw [hcontent]; rfl⟩)
  rw [← fills_run, ← hfills, List.countP_map] at hone
  exact hone

end Result

/-- `.text : SUBALIGN(4) { *(.a) . += 3; SHORT(1) *(.b) } = 0x90`: two members and two pools. -/
def textStmt : OutputStmt where
  items := [.input 0, .assign ⟨[46], .add, .number 3, .normal⟩ ⟨0, 1, 1, 0⟩,
    .data .short (.number 1) ⟨0, 1, 1, 0⟩, .input 1]
  fill := some ⟨.number 144, some (ascii "90")⟩
  numbered := rfl
  count_lt := by decide

def textSection : Section := ⟨0, 4098, 4, some 4⟩

def textEntries : List Entry := [⟨.input 0, 0, 5, 1, 0⟩, ⟨.input 1, 1, 8, 16, 0⟩]

def textLink : Link where
  inputs := ⟨fun _ _ => none, fun _ => false, fun _ => none, fun _ => none, fun _ => none,
    fun _ => none, fun _ _ => none, fun _ => none⟩
  statements := [.output 0]
  enabled _ := true
  noalloc _ := false
  tls _ := false
  byName _ := none
  regionNamed _ := none
  defaultRegion := 0
  symIndex _ := none
  defs _ := none
  saneExpr := false
  relro := false
  headersSize := 64
  maxPage := 4096
  commonPage := 4096
  textSegment := none
  imageBase := none
  rodataSegment := none
  ldataSegment := none
  endian := .little
  comment := []
  thunks := ⟨[(0, 0), (0, 1)], [], 16⟩
  pooled := true
  poolSpacing := 4

def textEngine : Engine where
  entries := [textEntries]
  outs := [⟨true, 0, 0, 0, 1, true, false, false, [], [], []⟩]
  regions := []
  syms := []
  memberOffset := [0, 0]
  mergeOffset := []
  dot := 0
  current := none
  lastOs := none
  preferNext := false
  foundEnd := false
  pass := 2
  finalPass := true
  span := ⟨0, 1, 1, 0⟩
  dataseg := ⟨.none, 0, 0, 0, 0, 0, 0, 0⟩
  fillPatterns := []
  errors := []

/-- The members are at 2 and 30, the data at 10, and the pools at 12 and 40. -/
theorem outputItems_laidOut_text :
    ∃ out entries' placed,
      (textEngine.outputItems textLink textSection textStmt).outs[0]? = some out ∧
      out.vma = 4098 ∧
      (textEngine.outputItems textLink textSection textStmt).entries[0]? = some entries' ∧
      entries'.map (fun m => { m with offset := 0 }) =
        textEntries.map (fun m => { m with offset := 0 }) ∧
      LaidOut textLink textSection (buildProgram textStmt.items textEntries) entries' out placed ∧
      (textStmt.fill.isSome →
        (textEngine.outputItems textLink textSection textStmt).errors = textEngine.errors →
        ∀ o < out.size, (∀ p ∈ placed, ¬(p.offset ≤ o ∧ o < p.offset + p.size)) →
          out.fills.countP (fun f => decide (f.1 ≤ o ∧ o < f.1 + f.2.1)) = 1) :=
  outputItems_laidOut rfl (by decide) rfl ⟨by decide, by decide⟩ (by decide) (by decide)

example : (textEngine.outputItems textLink textSection textStmt).outs.map
      (fun out => (out.size, out.fills, out.pools)) =
    [(56, [(0, 2, 0), (7, 3, 0), (28, 2, 0), (38, 2, 0)], [(0, 12, 12), (1, 22, 40)])] := by decide

end Qld.Elf.ScriptLayout
