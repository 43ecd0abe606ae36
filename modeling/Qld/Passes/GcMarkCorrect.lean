import Mathlib.Algebra.BigOperators.Group.Finset.Basic
import Mathlib.Algebra.GroupWithZero.Nat
import Qld.Passes.BitSet
import Qld.Passes.Graph

/-!
# The concurrent mark marks what is reachable

The model of the mark of `passes/gc.rs`, step by atomic step.  The threads share the mark bits only;
each task has a stack of its own and hands half of it to a new task when it grows.

* `Claimer.step` — one atomic step of a loop that claims targets through `AtomicBitSet::set`;
* `Task.step` — one atomic step of a task, or of the thread that claims the roots;
* `Mark.step`, `Mark.run` — the steps of any schedule, given by the tasks that take them;
* `Rounds` — rounds of marking one after the other, each to its end, with any chunks of roots and any
  threshold;
* `MarkFrom`, `MarkReachable`, `CollectGarbage` — what the functions of the source do.

The state remembers the sections whose edges were enumerated; nothing of the source reads that.  On
one thread there is one chunk of roots and no task is split.

* `Claimer.step_cases` — a step of a claiming loop passes a target over, tests it or claims it;
* `Task.step_spec` — a step of a task: what it marks goes onto one stack, what it enumerates leaves a
  stack, and targets stay until they are marked;
* `Mark.Inv` — a marked section was enumerated or is on exactly one stack, and its targets are marked
  or wait; `Inv.step`, `Inv.run` — under any schedule;
* `Mark.cost` — each step lowers it, so that every schedule ends;
* `Rounds.marked` — rounds mark what the roots so far reach, and enumerate each once;
* `mark_reaches` — so do the functions of the source, and they agree.
-/

namespace Qld.Passes

/-- A task hands off half its stack once the stack is longer than this. -/
def SPLIT_THRESHOLD : ℕ := 256

/-- The same for `mark_reachable`. -/
def LAZY_SPLIT_THRESHOLD : ℕ := 32

/-! ### Steps -/

/-- A loop that pushes the targets it claims. -/
structure Claimer where
  /-- The top of the stack is its last element. -/
  stack : List ℕ
  targets : List ℕ
  /-- The first target has passed the test of `set`, and its `fetch_or` is next. -/
  tested : Bool
  deriving DecidableEq, Repr

def Claimer.new (targets : List ℕ) : Claimer := ⟨[], targets, false⟩

/-- One atomic step; none when the targets are done. -/
def Claimer.step (bits : BitSet) (c : Claimer) : Option (BitSet × Claimer) :=
  match c.targets with
  | [] => none
  | target :: rest =>
    if c.tested then
      let result := bits.fetchOr target
      some (result.1, ⟨if result.2 then c.stack ++ [target] else c.stack, rest, false⟩)
    else if bits.test target then some (bits, { c with tested := true })
    else some (bits, ⟨c.stack, rest, false⟩)

/-- What a thread is at. -/
inductive Task where
  /-- Claiming the roots of a chunk, with more chunks to come. -/
  | roots (chunks : List (List ℕ)) (c : Claimer)
  /-- About to pop a section. -/
  | pop (stack : List ℕ)
  /-- Claiming the targets of a section. -/
  | claim (c : Claimer)
  deriving DecidableEq, Repr

/-- What a step leaves: the bits, the task and those it spawned, and the section whose edges it
enumerated. -/
structure Outcome where
  bits : BitSet
  tasks : List Task
  enumerated : List ℕ
  deriving DecidableEq, Repr

/-- Whether a stack is longer than the threshold; on one thread there is none. -/
def exceeds (threshold : Option ℕ) (len : ℕ) : Bool :=
  match threshold with
  | some threshold => threshold < len
  | none => false

/-- One atomic step of a task. -/
def Task.step (edges : ℕ → List ℕ) (threshold : Option ℕ) (bits : BitSet) : Task → Outcome
  | .roots chunks c =>
    match c.step bits with
    | some (bits, c) => ⟨bits, [.roots chunks c], []⟩
    | none =>
      if c.stack ≠ [] then ⟨bits, [.roots chunks (.new []), .pop c.stack], []⟩
      else
        match chunks with
        | [] => ⟨bits, [], []⟩
        | chunk :: chunks => ⟨bits, [.roots chunks (.new chunk)], []⟩
  | .pop stack =>
    match stack.getLast? with
    | none => ⟨bits, [], []⟩
    | some s => ⟨bits, [.claim { Claimer.new (edges s) with stack := stack.dropLast }], [s]⟩
  | .claim c =>
    match c.step bits with
    | some (bits, c) => ⟨bits, [.claim c], []⟩
    | none =>
      if exceeds threshold c.stack.length then
        let half := c.stack.length / 2
        ⟨bits, [.pop (c.stack.take half), .pop (c.stack.drop half)], []⟩
      else ⟨bits, [.pop c.stack], []⟩

/-- The bits, the tasks that have not ended, and the sections whose edges were enumerated. -/
structure Mark where
  bits : BitSet
  tasks : List Task
  enumerated : List ℕ
  deriving DecidableEq, Repr

namespace Mark

/-- Nothing is marked. -/
def new (sections : ℕ) : Mark := ⟨.new sections, [], []⟩

/-- Starts to mark from the roots of some chunks. -/
def begin (st : Mark) (chunks : List (List ℕ)) : Mark :=
  { st with tasks := [.roots chunks (.new [])] }

/-- A step of the task at a position. -/
def step (edges : ℕ → List ℕ) (threshold : Option ℕ) (st : Mark) (i : ℕ) : Option Mark :=
  match st.tasks[i]? with
  | none => none
  | some task =>
    let outcome := task.step edges threshold st.bits
    some ⟨outcome.bits, st.tasks.take i ++ outcome.tasks ++ st.tasks.drop (i + 1),
      outcome.enumerated ++ st.enumerated⟩

/-- The steps of a schedule. -/
def run (edges : ℕ → List ℕ) (threshold : Option ℕ) (st : Mark) (schedule : List ℕ) : Option Mark :=
  schedule.foldlM (step edges threshold) st

end Mark

/-! ### Rounds -/

/-- Rounds of marking, from the given roots altogether, each until its tasks have ended. -/
inductive Rounds (edges : ℕ → List ℕ) (sections : ℕ) : List ℕ → Mark → Prop
  | new : Rounds edges sections [] (.new sections)
  | round {roots : List ℕ} {st st' : Mark} (threshold : Option ℕ) (chunks : List (List ℕ))
      (schedule : List ℕ) : Rounds edges sections roots st →
      (st.begin chunks).run edges threshold schedule = some st' → st'.tasks = [] →
      Rounds edges sections (roots ++ chunks.flatten) st'

/-- `roots.chunks(size)`. -/
def chunksOf (size : ℕ) (roots : List ℕ) : List (List ℕ) :=
  if _h : roots = [] ∨ size = 0 then []
  else roots.take size :: chunksOf size (roots.drop size)
termination_by roots.length
decreasing_by
  rw [List.length_drop]
  have := List.length_pos_iff.mpr (not_or.mp _h).1
  have := (not_or.mp _h).2
  omega

/-- The chunks of roots, on several threads or on one. -/
def rootChunks (parallel : Bool) (size : ℕ) (roots : List ℕ) : List (List ℕ) :=
  if parallel then chunksOf size roots else [roots]

/-- `GcMarker::mark_from`, to its end. -/
def MarkFrom (graph : SectionGraph) (parallel : Bool) (roots : List ℕ) (st st' : Mark) : Prop :=
  ∃ schedule, (st.begin (rootChunks parallel SPLIT_THRESHOLD roots)).run graph.edges
    (if parallel then some SPLIT_THRESHOLD else none) schedule = some st' ∧ st'.tasks = []

/-- `mark_reachable`, to its end. -/
def MarkReachable (sections : ℕ) (roots : List ℕ) (edges : ℕ → List ℕ) (parallel : Bool)
    (st : Mark) : Prop :=
  ∃ schedule, ((Mark.new sections).begin (rootChunks parallel LAZY_SPLIT_THRESHOLD roots)).run edges
    (if parallel then some LAZY_SPLIT_THRESHOLD else none) schedule = some st ∧ st.tasks = []

/-- `collect_garbage`, to its end. -/
def CollectGarbage (graph : SectionGraph) (parallel : Bool) (st : Mark) : Prop :=
  MarkFrom graph parallel graph.roots (.new graph.numSections) st

open Qld.Lib

/-- The sections in range that the roots in range lead to. -/
def Reaches (sections : ℕ) (edges : ℕ → List ℕ) (roots : List ℕ) : ℕ → Prop :=
  Reached (fun s => (edges s).filter (· < sections)) (roots.filter (· < sections))

section Reaches

variable {sections : ℕ} {edges : ℕ → List ℕ} {roots more : List ℕ} {s t : ℕ}

theorem reaches_of_mem (hs : s ∈ roots) (hlt : s < sections) : Reaches sections edges roots s :=
  ⟨s, List.mem_filter.mpr ⟨hs, decide_eq_true hlt⟩, .refl⟩

theorem Reaches.step (h : Reaches sections edges roots s) (ht : t ∈ edges s) (hlt : t < sections) :
    Reaches sections edges roots t := by
  obtain ⟨root, hroot, hsteps⟩ := h
  exact ⟨root, hroot, hsteps.tail (List.mem_filter.mpr ⟨ht, decide_eq_true hlt⟩)⟩

theorem reaches_append :
    Reaches sections edges (roots ++ more) s ↔
      Reaches sections edges roots s ∨ Reaches sections edges more s := by
  unfold Reaches Reached
  simp only [List.filter_append, List.mem_append]
  constructor
  · rintro ⟨root, hroot | hroot, hsteps⟩
    · exact .inl ⟨root, hroot, hsteps⟩
    · exact .inr ⟨root, hroot, hsteps⟩
  · rintro (⟨root, hroot, hsteps⟩ | ⟨root, hroot, hsteps⟩)
    · exact ⟨root, .inl hroot, hsteps⟩
    · exact ⟨root, .inr hroot, hsteps⟩

/-- A set with the roots in it that the edges do not leave has what they reach in it. -/
theorem Reaches.induct {p : ℕ → Prop} (h : Reaches sections edges roots s)
    (hroots : ∀ r ∈ roots, r < sections → p r)
    (hedges : ∀ a, p a → ∀ b ∈ edges a, b < sections → p b) : p s := by
  obtain ⟨root, hroot, hsteps⟩ := h
  induction hsteps with
  | refl =>
    obtain ⟨hmem, hlt⟩ := List.mem_filter.mp hroot
    exact hroots _ hmem (of_decide_eq_true hlt)
  | tail _ hstep ih =>
    obtain ⟨hmem, hlt⟩ := List.mem_filter.mp hstep
    exact hedges _ ih _ hmem (of_decide_eq_true hlt)

end Reaches

/-! ### One step -/

/-- A target that has passed the test is in range. -/
def Claimer.Ok (sections : ℕ) (c : Claimer) : Prop :=
  c.tested = true → ∃ t rest, c.targets = t :: rest ∧ t < sections

/-- Bits in which one more may be set. -/
structure Sets (bits bits' : BitSet) (won : Option ℕ) : Prop where
  ok : bits'.Ok
  len : bits'.len = bits.len
  get : ∀ j, bits'.get j = (bits.get j || decide (won = some j))
  clear : ∀ t, won = some t → bits.get t = false ∧ t < bits.len

variable {bits bits' : BitSet}

theorem Sets.refl (h : bits.Ok) : Sets bits bits none where
  ok := h
  len := rfl
  get := fun j => by rw [decide_eq_false (by exact nofun), Bool.or_false]
  clear := nofun

variable {c c' : Claimer}

/-- **A step passes a target over, tests it, or claims it.** -/
theorem Claimer.step_cases (hbits : bits.Ok) (hc : c.Ok bits.len)
    (h : c.step bits = some (bits', c')) :
    ∃ t rest, c.targets = t :: rest ∧
      ((Sets bits bits' none ∧ (t < bits.len → bits'.get t = true) ∧ c' = ⟨c.stack, rest, false⟩) ∨
        (Sets bits bits' none ∧ c.tested = false ∧ t < bits.len ∧ c' = ⟨c.stack, t :: rest, true⟩) ∨
        (Sets bits bits' (some t) ∧ c' = ⟨c.stack ++ [t], rest, false⟩)) := by
  obtain ⟨stack, targets, tested⟩ := c
  unfold Claimer.step at h
  dsimp only at h
  split at h
  · cases h
  next t rest =>
  refine ⟨t, rest, rfl, ?_⟩
  split at h
  · next htested =>
    -- The `fetch_or`.
    obtain ⟨t', rest', htargets, hlt⟩ := hc htested
    obtain ⟨rfl, rfl⟩ := List.cons.inj htargets
    obtain ⟨rfl, rfl⟩ := Prod.mk.inj (Option.some.inj h)
    have hget := hbits.get_fetchOr hlt
    rw [hbits.fetchOr_won hlt]
    cases hold : bits.get t with
    | true =>
      refine .inl ⟨⟨hbits.fetchOr hlt, rfl, fun j => ?_, by simp⟩, fun _ => ?_, rfl⟩
      · rw [hget, decide_eq_false (show ¬ (none : Option ℕ) = some j by simp), Bool.or_false]
        by_cases hj : t = j
        · rw [← hj, hold, Bool.true_or]
        · rw [decide_eq_false hj, Bool.or_false]
      · rw [hget, hold, Bool.true_or]
    | false =>
      refine .inr (.inr ⟨⟨hbits.fetchOr hlt, rfl, fun j => ?_, ?_⟩, rfl⟩)
      · rw [hget, decide_eq_decide.mpr (Option.some_inj (a := t) (b := j)).symm]
      · rintro u hu
        obtain rfl := Option.some.inj hu
        exact ⟨hold, hlt⟩
  · next htested =>
    have hfalse : tested = false := Bool.eq_false_iff.mpr htested
    rw [hbits.test_eq] at h
    split at h
    · next htest =>
      obtain ⟨rfl, rfl⟩ := Prod.mk.inj (Option.some.inj h)
      have hlt := of_decide_eq_true (Bool.and_eq_true_iff.mp htest).1
      exact .inr (.inl ⟨.refl hbits, hfalse, hlt, rfl⟩)
    · next htest =>
      obtain ⟨rfl, rfl⟩ := Prod.mk.inj (Option.some.inj h)
      refine .inl ⟨.refl hbits, fun hlt => ?_, rfl⟩
      rw [decide_eq_true hlt, Bool.true_and, Bool.not_eq_true', Bool.not_eq_false] at htest
      exact htest

theorem Claimer.step_eq_none (h : c.step bits = none) :
    c.targets = [] := by
  unfold Claimer.step at h
  split at h
  · next hnil => exact hnil
  · split at h
    · cases h
    · split at h <;> cases h

namespace Task

/-- The sections on a task's stack. -/
def stack : Task → List ℕ
  | .roots _ c => c.stack
  | .pop stack => stack
  | .claim c => c.stack

/-- The targets that a task has still to claim. -/
def targets : Task → List ℕ
  | .roots chunks c => c.targets ++ chunks.flatten
  | .pop _ => []
  | .claim c => c.targets

def Ok (sections : ℕ) : Task → Prop
  | .roots _ c => c.Ok sections
  | .pop _ => True
  | .claim c => c.Ok sections

end Task

/-- What a claiming loop still has to do. -/
def Claimer.cost (c : Claimer) : ℕ := 4 * c.targets.length - if c.tested then 1 else 0

/-- What a task still has to do, without the sections on its stack. -/
def Task.cost : Task → ℕ
  | .roots chunks c =>
    c.cost + (if c.stack = [] then 0 else 2) + (chunks.map fun chunk => 4 * chunk.length + 1).sum + 1
  | .pop _ => 1
  | .claim c => c.cost + 3

/-- What the edges of a section will cost. -/
def sectionCost (edges : ℕ → List ℕ) (s : ℕ) : ℕ := 4 * (edges s).length + 3

/-- What a step of a task does. -/
structure Task.Stepped (edges : ℕ → List ℕ) (bits : BitSet) (task : Task) (o : Outcome)
    (won : Option ℕ) : Prop where
  sets : Sets bits o.bits won
  ok : ∀ t ∈ o.tasks, t.Ok bits.len
  /-- What was marked goes onto a stack, what was enumerated leaves one. -/
  count : ∀ s, o.enumerated.count s + (o.tasks.map fun t => t.stack.count s).sum =
    task.stack.count s + if won = some s then 1 else 0
  /-- A target in range stays until it is marked. -/
  waits : ∀ t ∈ task.targets, t < bits.len →
    o.bits.get t = true ∨ ∃ u ∈ o.tasks, t ∈ u.targets
  leads : ∀ s ∈ o.enumerated, ∀ t ∈ edges s, ∃ u ∈ o.tasks, t ∈ u.targets
  targets : ∀ u ∈ o.tasks, ∀ t ∈ u.targets, t ∈ task.targets ∨ ∃ s ∈ o.enumerated, t ∈ edges s
  won : ∀ t, won = some t → t ∈ task.targets
  cost : (o.tasks.map Task.cost).sum < task.cost + (o.enumerated.map (sectionCost edges)).sum

theorem Claimer.step_spec (hbits : bits.Ok) (hc : c.Ok bits.len)
    (h : c.step bits = some (bits', c')) :
    ∃ won, Sets bits bits' won ∧ c'.Ok bits.len ∧
      (∀ s, c'.stack.count s = c.stack.count s + if won = some s then 1 else 0) ∧
      (∀ t ∈ c.targets, t < bits.len → bits'.get t = true ∨ t ∈ c'.targets) ∧
      (∀ t ∈ c'.targets, t ∈ c.targets) ∧ (∀ t, won = some t → t ∈ c.targets) ∧
      c'.cost + (if c'.stack = [] then 0 else 2) < c.cost + (if c.stack = [] then 0 else 2) ∧
      c'.cost < c.cost := by
  obtain ⟨stack, targets, tested⟩ := c
  obtain ⟨t, rest, htargets, hcases⟩ := Claimer.step_cases hbits hc h
  dsimp only at htargets hcases ⊢
  subst htargets
  have hold : 4 * rest.length + 3 ≤ Claimer.cost ⟨stack, t :: rest, tested⟩ := by
    unfold Claimer.cost
    rw [List.length_cons]
    split <;> omega
  have hnew : ∀ stack, Claimer.cost ⟨stack, rest, false⟩ = 4 * rest.length := fun stack => rfl
  rcases hcases with ⟨hsets, hget, rfl⟩ | ⟨hsets, rfl, hlt, rfl⟩ | ⟨hsets, rfl⟩
  · refine ⟨none, hsets, nofun, fun s => rfl, ?_, fun u hu => List.mem_cons_of_mem _ hu, nofun, ?_,
      ?_⟩
    · intro u hu hult
      rcases List.mem_cons.mp hu with rfl | hu
      · exact .inl (hget hult)
      · exact .inr hu
    · rw [hnew]
      dsimp only
      omega
    · rw [hnew]
      omega
  · have hcost : Claimer.cost ⟨stack, t :: rest, true⟩ < Claimer.cost ⟨stack, t :: rest, false⟩ := by
      unfold Claimer.cost
      rw [List.length_cons]
      dsimp only
      rw [if_pos rfl, if_neg Bool.false_ne_true]
      omega
    refine ⟨none, hsets, fun _ => ⟨t, rest, rfl, hlt⟩, fun s => rfl, fun u hu _ => .inr hu,
      fun u hu => hu, nofun, ?_, hcost⟩
    dsimp only
    omega
  · refine ⟨some t, hsets, nofun, fun s => ?_, ?_, fun u hu => List.mem_cons_of_mem _ hu, ?_, ?_, ?_⟩
    · rw [List.count_append, List.count_singleton]
      refine congrArg _ (if_congr ?_ rfl rfl)
      rw [beq_iff_eq, Option.some_inj]
    · intro u hu _
      rcases List.mem_cons.mp hu with rfl | hu
      · left
        rw [hsets.get, decide_eq_true rfl, Bool.or_true]
      · exact .inr hu
    · intro u hu
      obtain rfl := Option.some.inj hu
      exact List.mem_cons_self
    · rw [hnew]
      dsimp only
      rw [if_neg (by simp)]
      omega
    · rw [hnew]
      omega

/-- **A step of a task.** -/
theorem Task.step_spec (edges : ℕ → List ℕ) (threshold : Option ℕ) {task : Task} (hbits : bits.Ok)
    (htask : task.Ok bits.len) :
    ∃ won, Task.Stepped edges bits task (task.step edges threshold bits) won := by
  cases task with
  | roots chunks c =>
    unfold Task.step
    dsimp only
    split
    · next bits' c' hstep =>
      obtain ⟨won, hsets, hok, hcount, hwaits, hsub, hwon, hcost, -⟩ :=
        Claimer.step_spec hbits htask hstep
      refine ⟨won, ⟨hsets, ?_, ?_, ?_, List.forall_mem_nil _, ?_, ?_, ?_⟩⟩
      · exact List.forall_mem_singleton.mpr hok
      · intro s
        simp only [List.count_nil, List.map_cons, List.map_nil, List.sum_cons, List.sum_nil,
          Nat.zero_add, Nat.add_zero, Task.stack]
        exact hcount s
      · intro t ht hlt
        rcases List.mem_append.mp ht with ht | ht
        · exact (hwaits t ht hlt).imp_right fun hmem =>
            ⟨_, List.mem_singleton_self _, List.mem_append_left _ hmem⟩
        · exact .inr ⟨_, List.mem_singleton_self _, List.mem_append_right _ ht⟩
      · refine List.forall_mem_singleton.mpr fun t ht => .inl ?_
        rcases List.mem_append.mp ht with ht | ht
        · exact List.mem_append_left _ (hsub t ht)
        · exact List.mem_append_right _ ht
      · exact fun t ht => List.mem_append_left _ (hwon t ht)
      · simp only [List.map_cons, List.map_nil, List.sum_cons, List.sum_nil, Nat.add_zero, Task.cost]
        omega
    · next hstep =>
      have hnil := Claimer.step_eq_none hstep
      have hclaim : ∀ (l : List ℕ), Claimer.Ok bits.len (.new l) := fun l => nofun
      split
      · next hstack =>
        -- The chunk is done, and its task is spawned.
        refine ⟨none, ⟨.refl hbits, ?_, ?_, ?_, List.forall_mem_nil _, ?_, nofun, ?_⟩⟩
        · exact List.forall_mem_cons.mpr ⟨hclaim [], List.forall_mem_singleton.mpr trivial⟩
        · intro s
          simp [Task.stack, Claimer.new]
        · intro t ht _
          rw [Task.targets, hnil, List.nil_append] at ht
          exact .inr ⟨_, List.mem_cons_self, ht⟩
        · refine List.forall_mem_cons.mpr ⟨fun t ht => .inl (List.mem_append_right _ ht),
            List.forall_mem_singleton.mpr (List.forall_mem_nil _)⟩
        · simp only [List.map_cons, List.map_nil, List.sum_cons, List.sum_nil, Nat.add_zero,
            Task.cost, Claimer.cost, Claimer.new, List.length_nil, if_neg hstack]
          rw [if_pos trivial]
          omega
      · next hstack =>
        have hstack := not_not.mp hstack
        split
        · refine ⟨none, ⟨.refl hbits, List.forall_mem_nil _, ?_, ?_, List.forall_mem_nil _,
            List.forall_mem_nil _, nofun, ?_⟩⟩
          · intro s
            simp [Task.stack, hstack]
          · intro t ht
            rw [Task.targets, hnil] at ht
            exact absurd ht List.not_mem_nil
          · exact Nat.succ_pos _
        · next chunk chunks =>
          refine ⟨none, ⟨.refl hbits, ?_, ?_, ?_, List.forall_mem_nil _, ?_, nofun, ?_⟩⟩
          · exact List.forall_mem_singleton.mpr (hclaim chunk)
          · intro s
            simp [Task.stack, Claimer.new, hstack]
          · intro t ht _
            rw [Task.targets, hnil, List.nil_append, List.flatten_cons] at ht
            exact .inr ⟨_, List.mem_singleton_self _, ht⟩
          · refine List.forall_mem_singleton.mpr fun t ht => .inl ?_
            rw [Task.targets, hnil, List.nil_append, List.flatten_cons]
            exact ht
          · simp only [List.map_cons, List.map_nil, List.sum_cons, List.sum_nil, Nat.add_zero,
              Task.cost, Claimer.cost, Claimer.new, ↓reduceIte]
            rw [if_neg Bool.false_ne_true]
            omega
  | pop stack =>
    unfold Task.step
    dsimp only
    split
    · next hlast =>
      have hstack := List.getLast?_eq_none_iff.mp hlast
      refine ⟨none, ⟨.refl hbits, List.forall_mem_nil _, ?_, List.forall_mem_nil _,
        List.forall_mem_nil _, List.forall_mem_nil _, nofun, Nat.one_pos⟩⟩
      intro s
      simp [Task.stack, hstack]
    · next s hlast =>
      have hsplit : stack = stack.dropLast ++ [s] := by
        obtain ⟨before, rfl⟩ := List.getLast?_eq_some_iff.mp hlast
        rw [List.dropLast_concat]
      refine ⟨none, ⟨.refl hbits, ?_, ?_, List.forall_mem_nil _, ?_, ?_, nofun, ?_⟩⟩
      · exact List.forall_mem_singleton.mpr nofun
      · intro x
        have hcount : stack.count x = stack.dropLast.count x + [s].count x := by
          conv_lhs => rw [hsplit]
          rw [List.count_append]
        simp only [List.map_cons, List.map_nil, List.sum_cons, List.sum_nil, Nat.add_zero,
          Task.stack]
        rw [hcount, if_neg nofun]
        omega
      · exact List.forall_mem_singleton.mpr fun t ht => ⟨_, List.mem_singleton_self _, ht⟩
      · exact List.forall_mem_singleton.mpr fun t ht => .inr ⟨s, List.mem_singleton_self _, ht⟩
      · simp only [List.map_cons, List.map_nil, List.sum_cons, List.sum_nil, Nat.add_zero, Task.cost,
          Claimer.cost, Claimer.new, sectionCost]
        rw [if_neg Bool.false_ne_true]
        omega
  | claim c =>
    unfold Task.step
    dsimp only
    split
    · next bits' c' hstep =>
      obtain ⟨won, hsets, hok, hcount, hwaits, hsub, hwon, -, hcost⟩ :=
        Claimer.step_spec hbits htask hstep
      refine ⟨won, ⟨hsets, ?_, ?_, ?_, List.forall_mem_nil _, ?_, hwon, ?_⟩⟩
      · exact List.forall_mem_singleton.mpr hok
      · intro s
        simp only [List.count_nil, List.map_cons, List.map_nil, List.sum_cons, List.sum_nil,
          Nat.zero_add, Nat.add_zero, Task.stack]
        exact hcount s
      · exact fun t ht hlt => (hwaits t ht hlt).imp_right fun hmem =>
          ⟨_, List.mem_singleton_self _, hmem⟩
      · exact List.forall_mem_singleton.mpr fun t ht => .inl (hsub t ht)
      · simp only [List.map_cons, List.map_nil, List.sum_cons, List.sum_nil, Nat.add_zero, Task.cost]
        omega
    · next hstep =>
      have hnil := Claimer.step_eq_none hstep
      have hwaits : ∀ t ∈ (Task.claim c).targets, ∀ p : Prop, p := fun t ht p => by
        rw [Task.targets, hnil] at ht
        exact absurd ht List.not_mem_nil
      have hcost : 3 ≤ (Task.claim c).cost := Nat.le_add_left _ _
      split
      · -- Half of the stack goes to a new task.
        refine ⟨none, ⟨.refl hbits, ?_, ?_, fun t ht _ => hwaits t ht _, List.forall_mem_nil _, ?_,
          nofun, ?_⟩⟩
        · exact List.forall_mem_cons.mpr ⟨trivial, List.forall_mem_singleton.mpr trivial⟩
        · intro s
          simp only [List.count_nil, List.map_cons, List.map_nil, List.sum_cons, List.sum_nil,
            Nat.add_zero, Nat.zero_add, Task.stack]
          rw [← List.count_append, List.take_append_drop, if_neg nofun, Nat.add_zero]
        · exact List.forall_mem_cons.mpr
            ⟨List.forall_mem_nil _, List.forall_mem_singleton.mpr (List.forall_mem_nil _)⟩
        · exact hcost
      · refine ⟨none, ⟨.refl hbits, ?_, ?_, fun t ht _ => hwaits t ht _, List.forall_mem_nil _, ?_,
          nofun, ?_⟩⟩
        · exact List.forall_mem_singleton.mpr trivial
        · intro s
          simp only [List.count_nil, List.map_cons, List.map_nil, List.sum_cons, List.sum_nil,
            Nat.add_zero, Nat.zero_add, Task.stack]
          rw [if_neg nofun, Nat.add_zero]
        · exact List.forall_mem_singleton.mpr (List.forall_mem_nil _)
        · exact Nat.lt_of_lt_of_le (show 1 < 3 by decide) hcost

/-! ### Any schedule -/

namespace Mark

variable {sections : ℕ} {edges : ℕ → List ℕ} {threshold : Option ℕ} {roots : List ℕ}
  {st st' : Mark}

/-- A target is marked, or some task has still to claim it. -/
def Pending (st : Mark) (t : ℕ) : Prop := st.bits.get t = true ∨ ∃ u ∈ st.tasks, t ∈ u.targets

/-- What holds after every step of a round, `roots` being those of all rounds so far. -/
structure Inv (sections : ℕ) (edges : ℕ → List ℕ) (roots : List ℕ) (st : Mark) : Prop where
  ok : st.bits.Ok
  len : st.bits.len = sections
  tasks : ∀ u ∈ st.tasks, u.Ok sections
  /-- A marked section was enumerated or is on exactly one stack. -/
  once : ∀ s, st.enumerated.count s + (st.tasks.map fun u => u.stack.count s).sum =
    if st.bits.get s then 1 else 0
  started : ∀ r ∈ roots, r < sections → st.Pending r
  leads : ∀ s ∈ st.enumerated, ∀ t ∈ edges s, t < sections → st.Pending t
  sound : ∀ s, st.bits.get s = true → Reaches sections edges roots s
  waiting : ∀ u ∈ st.tasks, ∀ t ∈ u.targets, t < sections → Reaches sections edges roots t

theorem step_eq_some {i : ℕ} (h : st.step edges threshold i = some st') :
    ∃ before task after, st.tasks = before ++ task :: after ∧
      st' = ⟨(task.step edges threshold st.bits).bits,
        before ++ (task.step edges threshold st.bits).tasks ++ after,
        (task.step edges threshold st.bits).enumerated ++ st.enumerated⟩ := by
  unfold step at h
  split at h
  · exact nomatch h
  · next task htask =>
    obtain ⟨hi, rfl⟩ := List.getElem?_eq_some_iff.mp htask
    refine ⟨st.tasks.take i, _, st.tasks.drop (i + 1), ?_, (Option.some.inj h).symm⟩
    rw [List.cons_getElem_drop_succ, List.take_append_drop]

theorem exists_step (edges : ℕ → List ℕ) (threshold : Option ℕ) (h : st.tasks ≠ []) :
    ∃ st', st.step edges threshold 0 = some st' := by
  cases htasks : st.tasks with
  | nil => exact absurd htasks h
  | cons task rest => exact ⟨_, by rw [step, htasks, List.getElem?_cons_zero]⟩

/-- What the edges that were not enumerated yet and the tasks will cost. -/
def cost (edges : ℕ → List ℕ) (st : Mark) : ℕ :=
  ∑ s ∈ Finset.range st.bits.len \ st.enumerated.toFinset, sectionCost edges s +
    (st.tasks.map Task.cost).sum

section Step

variable {before after : List Task} {task : Task} {o : Outcome} {won : Option ℕ}

theorem Pending.step {t : ℕ} (h : st.Pending t) (htasks : st.tasks = before ++ task :: after)
    (hst : Task.Stepped edges st.bits task o won) (hlt : t < st.bits.len) :
    Pending ⟨o.bits, before ++ o.tasks ++ after, o.enumerated ++ st.enumerated⟩ t := by
  have hmem : ∀ u ∈ o.tasks, u ∈ before ++ o.tasks ++ after := fun u hu =>
    List.mem_append_left _ (List.mem_append_right _ hu)
  rcases h with hget | ⟨u, hu, ht⟩
  · left
    show o.bits.get t = true
    rw [hst.sets.get, hget, Bool.true_or]
  · rw [htasks] at hu
    rcases List.mem_append.mp hu with hu | hu
    · exact .inr ⟨u, List.mem_append_left _ (List.mem_append_left _ hu), ht⟩
    · rcases List.mem_cons.mp hu with rfl | hu
      · exact (hst.waits t ht hlt).imp_right fun ⟨v, hv, htv⟩ => ⟨v, hmem v hv, htv⟩
      · exact .inr ⟨u, List.mem_append_right _ hu, ht⟩

/-- A section is counted as often after a step as before, one that the step marked once more. -/
theorem count_step (htasks : st.tasks = before ++ task :: after)
    (hst : Task.Stepped edges st.bits task o won) (s : ℕ) :
    (o.enumerated ++ st.enumerated).count s +
        ((before ++ o.tasks ++ after).map fun u => u.stack.count s).sum =
      st.enumerated.count s + (st.tasks.map fun u => u.stack.count s).sum +
        if won = some s then 1 else 0 := by
  have hcount := hst.count s
  rw [htasks, List.count_append]
  simp only [List.map_append, List.map_cons, List.sum_append, List.sum_cons]
  omega

/-- **The invariant holds after a step of any task.** -/
theorem Inv.of_stepped (hinv : Inv sections edges roots st)
    (htasks : st.tasks = before ++ task :: after)
    (hst : Task.Stepped edges st.bits task o won) :
    Inv sections edges roots
      ⟨o.bits, before ++ o.tasks ++ after, o.enumerated ++ st.enumerated⟩ := by
  have hlen := hinv.len
  have htask : task ∈ st.tasks := by
    rw [htasks]
    exact List.mem_append_right _ List.mem_cons_self
  have hold : ∀ u, u ∈ before ++ o.tasks ++ after → u ∈ o.tasks ∨ u ∈ st.tasks := by
    intro u hu
    rw [htasks]
    rcases List.mem_append.mp hu with hu | hu
    · rcases List.mem_append.mp hu with hu | hu
      · exact .inr (List.mem_append_left _ hu)
      · exact .inl hu
    · exact .inr (List.mem_append_right _ (List.mem_cons_of_mem _ hu))
  have hwon : ∀ s, won = some s → Reaches sections edges roots s := by
    intro s hs
    obtain ⟨-, hlt⟩ := hst.sets.clear s hs
    exact hinv.waiting task htask s (hst.won s hs) (hlen ▸ hlt)
  -- What a task enumerates was on its stack, so it was marked.
  have henumerated : ∀ s ∈ o.enumerated, Reaches sections edges roots s := by
    intro s hs
    have hpos := List.count_pos_iff.mpr hs
    have hcount := hst.count s
    by_cases hw : won = some s
    · exact hwon s hw
    · rw [if_neg hw] at hcount
      have hget : st.bits.get s = true := by
        by_contra hclear
        have honce := hinv.once s
        rw [if_neg hclear, htasks, List.map_append, List.sum_append, List.map_cons,
          List.sum_cons] at honce
        omega
      exact hinv.sound s hget
  refine ⟨hst.sets.ok, hst.sets.len.trans hlen, ?_, ?_, ?_, ?_, ?_, ?_⟩
  · intro u hu
    rcases hold u hu with hu | hu
    · exact hlen ▸ hst.ok u hu
    · exact hinv.tasks u hu
  · intro s
    show (o.enumerated ++ st.enumerated).count s +
      ((before ++ o.tasks ++ after).map fun u => u.stack.count s).sum = if o.bits.get s then 1 else 0
    rw [count_step htasks hst s, hinv.once s, hst.sets.get]
    by_cases hw : won = some s
    · rw [(hst.sets.clear s hw).1, if_pos hw, decide_eq_true hw]
      rfl
    · rw [if_neg hw, decide_eq_false hw, Bool.or_false]
      rfl
  · intro r hr hlt
    exact (hinv.started r hr hlt).step htasks hst (hlen.symm ▸ hlt)
  · intro s hs t ht hlt
    rcases List.mem_append.mp hs with hs | hs
    · obtain ⟨u, hu, htu⟩ := hst.leads s hs t ht
      exact .inr ⟨u, List.mem_append_left _ (List.mem_append_right _ hu), htu⟩
    · exact (hinv.leads s hs t ht hlt).step htasks hst (hlen.symm ▸ hlt)
  · intro s hs
    rw [hst.sets.get, Bool.or_eq_true, decide_eq_true_eq] at hs
    exact hs.elim (hinv.sound s) (hwon s)
  · intro u hu t ht hlt
    rcases hold u hu with hu | hu
    · rcases hst.targets u hu t ht with ht | ⟨s, hs, ht⟩
      · exact hinv.waiting task htask t ht hlt
      · exact (henumerated s hs).step ht hlt
    · exact hinv.waiting u hu t ht hlt

theorem Inv.nodup (hinv : Inv sections edges roots st) : st.enumerated.Nodup := by
  refine List.nodup_iff_count_le_one.mpr fun s => ?_
  have honce := hinv.once s
  split at honce <;> omega

theorem Inv.get_of_enumerated (hinv : Inv sections edges roots st) {s : ℕ}
    (hs : s ∈ st.enumerated) : st.bits.get s = true := by
  by_contra hclear
  have hpos := List.count_pos_iff.mpr hs
  have honce := hinv.once s
  rw [if_neg hclear] at honce
  omega

theorem Inv.cost_lt (hinv : Inv sections edges roots st)
    (htasks : st.tasks = before ++ task :: after)
    (hst : Task.Stepped edges st.bits task o won) :
    cost edges ⟨o.bits, before ++ o.tasks ++ after, o.enumerated ++ st.enumerated⟩ <
      st.cost edges := by
  have hinv' := hinv.of_stepped htasks hst
  have hnodup := List.nodup_append.mp hinv'.nodup
  have hcost : (o.tasks.map Task.cost).sum <
    task.cost + (o.enumerated.map fun s => sectionCost edges s).sum := hst.cost
  -- The sections enumerated by this step were not enumerated before.
  have hsub : o.enumerated.toFinset ⊆ Finset.range st.bits.len \ st.enumerated.toFinset := by
    intro s hs
    have hs := List.mem_toFinset.mp hs
    rw [Finset.mem_sdiff, Finset.mem_range, List.mem_toFinset]
    refine ⟨?_, fun hmem => hnodup.2.2 s hs s hmem rfl⟩
    rw [← hst.sets.len]
    exact BitSet.lt_of_get (hinv'.get_of_enumerated (List.mem_append_left _ hs))
  have hsum := Finset.sum_sdiff (f := sectionCost edges) hsub
  rw [sdiff_sdiff_left, List.sum_toFinset _ hnodup.1] at hsum
  unfold cost
  dsimp only
  rw [hst.sets.len, List.toFinset_append, Finset.union_comm, htasks]
  simp only [List.map_append, List.map_cons, List.sum_append, List.sum_cons]
  rw [← hsum]
  simp only [Finset.sup_eq_union]
  omega

end Step

/-- **A step of the mark keeps the invariant and lowers the cost.** -/
theorem Inv.step {i : ℕ} (hinv : Inv sections edges roots st)
    (h : st.step edges threshold i = some st') :
    Inv sections edges roots st' ∧ st'.cost edges < st.cost edges := by
  obtain ⟨before, task, after, htasks, rfl⟩ := step_eq_some h
  have hok : task.Ok st.bits.len := by
    rw [hinv.len]
    refine hinv.tasks task ?_
    rw [htasks]
    exact List.mem_append_right _ List.mem_cons_self
  obtain ⟨won, hst⟩ := Task.step_spec edges threshold hinv.ok hok
  exact ⟨hinv.of_stepped htasks hst, hinv.cost_lt htasks hst⟩

/-- **Any schedule keeps the invariant, and has no more steps than the cost.** -/
theorem Inv.run {schedule : List ℕ} : ∀ {st : Mark}, Inv sections edges roots st →
    st.run edges threshold schedule = some st' →
    Inv sections edges roots st' ∧ schedule.length + st'.cost edges ≤ st.cost edges := by
  induction schedule with
  | nil =>
    intro st hinv h
    obtain rfl := Option.some.inj h
    exact ⟨hinv, (Nat.zero_add _).le⟩
  | cons i schedule ih =>
    intro st hinv h
    rw [Mark.run, List.foldlM_cons] at h
    obtain ⟨mid, hmid, h⟩ := Option.bind_eq_some_iff.mp h
    obtain ⟨hinv, hlt⟩ := hinv.step hmid
    obtain ⟨hinv, hle⟩ := ih hinv h
    refine ⟨hinv, ?_⟩
    rw [List.length_cons]
    omega

theorem Inv.exists_run (hinv : Inv sections edges roots st) :
    ∃ schedule st', st.run edges threshold schedule = some st' ∧ st'.tasks = [] := by
  induction hcost : st.cost edges using Nat.strong_induction_on generalizing st with
  | h n ih =>
    by_cases htasks : st.tasks = []
    · exact ⟨[], st, rfl, htasks⟩
    · obtain ⟨mid, hmid⟩ := exists_step edges threshold htasks
      obtain ⟨hinv, hlt⟩ := hinv.step hmid
      obtain ⟨schedule, st', hrun, hend⟩ := ih _ (hcost ▸ hlt) hinv rfl
      refine ⟨0 :: schedule, st', ?_, hend⟩
      rw [Mark.run, List.foldlM_cons]
      exact Option.bind_eq_some_iff.mpr ⟨mid, hmid, hrun⟩

theorem inv_new (sections : ℕ) : Inv sections edges [] (new sections) where
  ok := BitSet.ok_new sections
  len := rfl
  tasks := List.forall_mem_nil _
  once := fun s => by
    rw [new, BitSet.get_new]
    rfl
  started := List.forall_mem_nil _
  leads := List.forall_mem_nil _
  sound := fun s hs => by
    rw [new, BitSet.get_new] at hs
    exact nomatch hs
  waiting := List.forall_mem_nil _

/-- A round starts with nothing on a stack and its roots waiting. -/
theorem Inv.begin (hinv : Inv sections edges roots st) (hend : st.tasks = [])
    (chunks : List (List ℕ)) : Inv sections edges (roots ++ chunks.flatten) (st.begin chunks) where
  ok := hinv.ok
  len := hinv.len
  tasks := List.forall_mem_singleton.mpr nofun
  once := fun s => by
    have honce := hinv.once s
    rw [hend] at honce
    exact honce
  started := by
    intro r hr hlt
    rcases List.mem_append.mp hr with hr | hr
    · rcases hinv.started r hr hlt with hget | ⟨u, hu, -⟩
      · exact .inl hget
      · exact absurd (hend ▸ hu) List.not_mem_nil
    · exact .inr ⟨_, List.mem_singleton_self _, hr⟩
  leads := by
    intro s hs t ht hlt
    rcases hinv.leads s hs t ht hlt with hget | ⟨u, hu, -⟩
    · exact .inl hget
    · exact absurd (hend ▸ hu) List.not_mem_nil
  sound := fun s hs => reaches_append.mpr (.inl (hinv.sound s hs))
  waiting := by
    refine List.forall_mem_singleton.mpr fun t ht hlt => ?_
    exact reaches_of_mem (List.mem_append_right _ ht) hlt

end Mark

/-! ### Rounds -/

section Rounds

variable {sections : ℕ} {edges : ℕ → List ℕ} {roots more : List ℕ} {st st' : Mark}

theorem Rounds.inv (h : Rounds edges sections roots st) :
    st.Inv sections edges roots ∧ st.tasks = [] := by
  induction h with
  | new => exact ⟨Mark.inv_new sections, rfl⟩
  | round threshold chunks schedule _ hrun hend ih =>
    exact ⟨((ih.1.begin ih.2 chunks).run hrun).1, hend⟩

/-- What marking from the roots so far has to leave: what they reach is marked, and its edges were
enumerated once. -/
structure Marked (sections : ℕ) (edges : ℕ → List ℕ) (roots : List ℕ) (st : Mark) : Prop where
  bits : ∀ s, st.bits.get s = true ↔ Reaches sections edges roots s
  enumerated : ∀ s, Reaches sections edges roots s → st.enumerated.count s = 1
  others : ∀ s, ¬ Reaches sections edges roots s → st.enumerated.count s = 0

/-- **Rounds mark what the roots reach, and enumerate it once.** -/
theorem Rounds.marked (h : Rounds edges sections roots st) : Marked sections edges roots st := by
  obtain ⟨hinv, hend⟩ := h.inv
  have hcount : ∀ s, st.enumerated.count s = if st.bits.get s then 1 else 0 := by
    intro s
    rw [← hinv.once s, hend]
    rfl
  have hpending : ∀ t, st.Pending t → st.bits.get t = true := by
    rintro t (hget | ⟨u, hu, -⟩)
    · exact hget
    · exact absurd (hend ▸ hu) List.not_mem_nil
  have hbits : ∀ s, st.bits.get s = true ↔ Reaches sections edges roots s := by
    refine fun s => ⟨hinv.sound s, fun hreach => ?_⟩
    refine hreach.induct (fun r hr hlt => hpending r (hinv.started r hr hlt)) ?_
    intro a ha b hb hlt
    have hmem : a ∈ st.enumerated := by
      rw [← List.count_pos_iff, hcount, if_pos ha]
      exact Nat.one_pos
    exact hpending b (hinv.leads a hmem b hb hlt)
  refine ⟨hbits, fun s hs => ?_, fun s hs => ?_⟩
  · rw [hcount, if_pos ((hbits s).mpr hs)]
  · rw [hcount, if_neg fun hget => hs ((hbits s).mp hget)]

/-- The marks that the same roots lead to are equal, whatever the rounds and the schedules. -/
theorem Rounds.bits_eq (h : Rounds edges sections roots st) (h' : Rounds edges sections roots st') :
    st.bits = st'.bits := by
  apply BitSet.ext_get h.inv.1.ok h'.inv.1.ok
  · rw [h.inv.1.len, h'.inv.1.len]
  · intro s
    rw [Bool.eq_iff_iff, h.marked.bits, h'.marked.bits]

theorem chunksOf_flatten {size : ℕ} (hsize : 0 < size) (roots : List ℕ) :
    (chunksOf size roots).flatten = roots := by
  fun_induction chunksOf size roots with
  | case1 roots h =>
    rcases h with rfl | h
    · rfl
    · omega
  | case2 roots h ih => rw [List.flatten_cons, ih, List.take_append_drop]

variable {parallel : Bool}

theorem rootChunks_flatten {size : ℕ} (hsize : 0 < size) (roots : List ℕ) :
    (rootChunks parallel size roots).flatten = roots := by
  unfold rootChunks
  split
  · exact chunksOf_flatten hsize roots
  · rw [List.flatten_singleton]

theorem MarkFrom.rounds {graph : SectionGraph} (hst : Rounds graph.edges sections roots st)
    (h : MarkFrom graph parallel more st st') :
    Rounds graph.edges sections (roots ++ more) st' := by
  obtain ⟨schedule, hrun, hend⟩ := h
  have hround := hst.round _ _ schedule hrun hend
  rwa [rootChunks_flatten (by decide)] at hround

theorem MarkReachable.rounds (h : MarkReachable sections roots edges parallel st) :
    Rounds edges sections roots st := by
  obtain ⟨schedule, hrun, hend⟩ := h
  have hround := Rounds.new.round _ _ schedule hrun hend
  rwa [rootChunks_flatten (by decide), List.nil_append] at hround

theorem CollectGarbage.rounds {graph : SectionGraph} (h : CollectGarbage graph parallel st) :
    Rounds graph.edges graph.numSections graph.roots st :=
  (MarkFrom.rounds .new h : Rounds graph.edges graph.numSections ([] ++ graph.roots) st)

end Rounds

/-- **Every mark of `passes/gc.rs` marks what its roots reach, under any schedule (proved).**  It
ends, enumerates the edges of each section reached once, and all marks of the same roots leave the
same bits. -/
theorem mark_reaches (sections : ℕ) (edges : ℕ → List ℕ) :
    (∀ roots st, Rounds edges sections roots st → Marked sections edges roots st ∧
      ∀ threshold chunks schedule st',
        (st.begin chunks).run edges threshold schedule = some st' →
        schedule.length ≤ (st.begin chunks).cost edges ∧
        ∃ rest last, st'.run edges threshold rest = some last ∧ last.tasks = []) ∧
    (∀ roots parallel st, MarkReachable sections roots edges parallel st →
      Marked sections edges roots st) ∧
    (∀ (graph : SectionGraph) parallel st, CollectGarbage graph parallel st →
      Marked graph.numSections graph.edges graph.roots st ∧
      ∀ parallel' st', MarkReachable graph.numSections graph.roots graph.edges parallel' st' →
        st.bits = st'.bits) ∧
    ∀ (graph : SectionGraph) roots more parallel st st',
      Rounds graph.edges graph.numSections roots st → MarkFrom graph parallel more st st' →
      Marked graph.numSections graph.edges (roots ++ more) st' ∧
      ∀ s, st'.bits.get s = true ↔
        st.bits.get s = true ∨ Reaches graph.numSections graph.edges more s := by
  refine ⟨?_, ?_, ?_, ?_⟩
  · intro roots st hst
    refine ⟨hst.marked, fun threshold chunks schedule st' hrun => ?_⟩
    obtain ⟨hinv, hle⟩ := (hst.inv.1.begin hst.inv.2 chunks).run hrun
    exact ⟨by omega, hinv.exists_run⟩
  · exact fun roots parallel st hst => hst.rounds.marked
  · intro graph parallel st hst
    exact ⟨hst.rounds.marked, fun parallel' st' hst' => hst.rounds.bits_eq hst'.rounds⟩
  · intro graph roots more parallel st st' hst hfrom
    have hmarked := (hfrom.rounds hst).marked
    refine ⟨hmarked, fun s => ?_⟩
    rw [hmarked.bits, hst.marked.bits]
    exact reaches_append

/-- Section 0 points to 1 and to a section out of range, and 1 points back. -/
def cycleEdges : ℕ → List ℕ
  | 0 => [1, 9]
  | 1 => [0]
  | _ => []

theorem mark_reaches_cycle : ∃ st, MarkReachable 3 [0, 0, 7] cycleEdges false st ∧
    Marked 3 cycleEdges [0, 0, 7] st :=
  have hst : MarkReachable 3 [0, 0, 7] cycleEdges false ⟨⟨[3], 3⟩, [], [1, 0]⟩ :=
    ⟨List.replicate 16 0, by decide, rfl⟩
  ⟨_, hst, (mark_reaches 3 cycleEdges).2.1 _ _ _ hst⟩

end Qld.Passes
