import Mathlib.Order.Bounds.Basic
import Qld.Lib.Except
import Qld.Passes.GcMarkCorrect

/-!
# Graphs that are built one call at a time

* `GraphBuilder.Call`, `GraphBuilder.call` — the calls of a builder;
* `Call.Asks` — what a call asks of the live sections;
* `allows_foldl` — the edges and roots of a builder ask for what its calls do;
* `collected_least` — garbage collection keeps the least set that the calls allow, so
  that the members of a group live or die together.
-/

namespace Qld.Passes.GraphBuilder

open Qld.Lib

/-- A call of one of the builder's methods. -/
inductive Call where
  | addEdge (source target : ℕ)
  | addRoot (s : ℕ)
  | keepTogether (members : List ℕ)
  deriving DecidableEq, Repr

def call (b : GraphBuilder) : Call → GraphBuilder
  | .addEdge source target => b.addEdge source target
  | .addRoot s => b.addRoot s
  | .keepTogether members => b.keepTogether members

/-- What a call asks of the live sections. -/
def Call.Asks (live : Set ℕ) : Call → Prop
  | .addEdge source target => source ∈ live → target ∈ live
  | .addRoot s => s ∈ live
  | .keepTogether members => ∀ x ∈ members, ∀ y ∈ members, x ∈ live → y ∈ live

/-- What the edges and roots of a builder ask of them. -/
def Allows (b : GraphBuilder) (live : Set ℕ) : Prop :=
  (∀ s ∈ b.roots, s ∈ live) ∧ ∀ pair ∈ b.edges.pairs, pair.1 ∈ live → pair.2 ∈ live

variable {live : Set ℕ}

/-! ### Groups -/

/-- Along a chain of edges, from its first section and to its last. -/
theorem live_of_zip (a : ℕ) (l : List ℕ) :
    (∀ pair ∈ (a :: l).zip l, pair.1 ∈ live → pair.2 ∈ live) → (a ∈ live → ∀ b ∈ a :: l, b ∈ live) ∧
      ∀ b ∈ a :: l, b ∈ live → ∀ last ∈ (a :: l).getLast?, last ∈ live := by
  induction l generalizing a with
  | nil => simp
  | cons c l ih =>
    intro h
    obtain ⟨hfirst, hlast⟩ := ih c fun pair hpair => h pair (List.mem_cons_of_mem _ hpair)
    have hac : a ∈ live → c ∈ live := h (a, c) List.mem_cons_self
    rw [List.getLast?_cons_cons]
    refine ⟨fun ha b hb => ?_, fun b hb hlive => ?_⟩
    · rcases List.mem_cons.mp hb with rfl | hb
      · exact ha
      · exact hfirst (hac ha) b hb
    · rcases List.mem_cons.mp hb with rfl | hb
      · exact hlast c List.mem_cons_self (hac hlive)
      · exact hlast b hb hlive

theorem foldl_addEdge (pairs : List (ℕ × ℕ)) (b : GraphBuilder) :
    pairs.foldl (fun b pair => b.addEdge pair.1 pair.2) b =
      { b with edges := { b.edges with pairs := b.edges.pairs ++ pairs } } := by
  induction pairs generalizing b with
  | nil => rw [List.foldl_nil, List.append_nil]
  | cons pair pairs ih =>
    rw [List.foldl_cons, ih]
    simp only [addEdge, List.append_assoc, List.cons_append, List.nil_append]

theorem keepTogether_cons (b : GraphBuilder) (x y : ℕ) (rest : List ℕ) :
    ∃ last ∈ (x :: y :: rest).getLast?, b.keepTogether (x :: y :: rest) = { b with edges :=
      { b.edges with pairs :=
        b.edges.pairs ++ ((x :: y :: rest).zip (y :: rest) ++ [(last, x)]) } } := by
  refine ⟨_, List.getLast?_eq_some_getLast (List.cons_ne_nil _ _), ?_⟩
  simp only [keepTogether, foldl_addEdge, List.getLast?_eq_some_getLast (List.cons_ne_nil x _)]
  simp only [addEdge, List.append_assoc]

/-- **The cycle of a group asks that its members live together.** -/
theorem allows_keepTogether (b : GraphBuilder) (members : List ℕ) :
    (b.keepTogether members).Allows live ↔
      b.Allows live ∧ (Call.keepTogether members).Asks live := by
  match members with
  | [] => exact ⟨fun h => ⟨h, fun _ hx => absurd hx List.not_mem_nil⟩, And.left⟩
  | [x] =>
    refine ⟨fun h => ⟨h, fun a ha b hb => ?_⟩, And.left⟩
    rw [List.mem_singleton.mp ha, List.mem_singleton.mp hb]
    exact id
  | x :: y :: rest =>
    obtain ⟨last, hlast, heq⟩ := b.keepTogether_cons x y rest
    rw [heq]
    refine ⟨fun h => ⟨⟨h.1, fun pair hpair => h.2 pair (List.mem_append_left _ hpair)⟩,
      fun a ha c hc hlive => ?_⟩, fun ⟨h, hall⟩ => ⟨h.1, fun pair hpair => ?_⟩⟩
    · obtain ⟨hfirst, hend⟩ := live_of_zip x (y :: rest) fun pair hpair =>
        h.2 pair (List.mem_append_right _ (List.mem_append_left _ hpair))
      have hback := h.2 (last, x)
        (List.mem_append_right _ (List.mem_append_right _ List.mem_cons_self))
      exact hfirst (hback (hend a ha hlive last hlast)) c hc
    · rcases List.mem_append.mp hpair with hpair | hpair
      · exact h.2 pair hpair
      · rcases List.mem_append.mp hpair with hpair | hpair
        · obtain ⟨hx, hy⟩ := List.of_mem_zip hpair
          exact hall _ hx _ (List.mem_cons_of_mem _ hy)
        · obtain rfl := List.mem_singleton.mp hpair
          exact hall last (List.mem_of_getLast? hlast) x List.mem_cons_self

/-! ### All calls -/

theorem allows_call (b : GraphBuilder) (c : Call) :
    (b.call c).Allows live ↔ b.Allows live ∧ c.Asks live := by
  cases c with
  | addEdge source target =>
    simp only [call, addEdge, Allows, Call.Asks, List.forall_mem_append, List.forall_mem_singleton,
      and_assoc]
  | addRoot s =>
    simp only [call, addRoot, Allows, Call.Asks, List.forall_mem_append, List.forall_mem_singleton]
    tauto
  | keepTogether members => exact b.allows_keepTogether members

/-- **The edges and roots of a builder ask for what its calls do.** -/
theorem allows_foldl (calls : List Call) (b : GraphBuilder) :
    (calls.foldl call b).Allows live ↔ b.Allows live ∧ ∀ c ∈ calls, c.Asks live := by
  induction calls generalizing b with
  | nil => exact ⟨fun h => ⟨h, fun _ hc => absurd hc List.not_mem_nil⟩, And.left⟩
  | cons c calls ih => rw [List.foldl_cons, ih, allows_call, List.forall_mem_cons, and_assoc]

theorem build_eq_ok {b : GraphBuilder} {graph : SectionGraph} (h : b.build = .ok graph) :
    (∀ x y, y ∈ graph.edges x ↔ (x, y) ∈ b.edges.pairs) ∧ graph.roots = b.roots := by
  rw [build] at h
  split at h
  · exact nomatch h
  · obtain ⟨c, hc, hnew⟩ := bind_eq_ok.mp h
    obtain ⟨htable, hroots⟩ := SectionGraph.new_eq_ok hnew
    refine ⟨fun x y => ?_, hroots⟩
    rw [SectionGraph.edges, htable, CsrBuilder.row_build hc]
    simp [List.mem_filter]

/-- **Garbage collection keeps the least set of sections that the calls allow (proved).** -/
theorem collected_least {sections : ℕ} {calls : List Call} {graph : SectionGraph}
    (hbuild : (calls.foldl call (new sections)).build = .ok graph) {parallel : Bool} {st : Mark}
    (hst : CollectGarbage graph parallel st) :
    IsLeast {live | ∀ c ∈ calls, c.Asks live} {s | st.bits.get s = true} := by
  obtain ⟨hedges, hroots⟩ := build_eq_ok hbuild
  have hbits := hst.rounds.marked.bits
  have hallows : ∀ live, (∀ c ∈ calls, c.Asks live) ↔
      (calls.foldl call (new sections)).Allows live := fun live => by
      rw [allows_foldl]
      exact ⟨fun h => ⟨⟨fun _ hs => absurd hs List.not_mem_nil,
        fun _ hs => absurd hs List.not_mem_nil⟩, h⟩, And.right⟩
  refine ⟨(hallows _).mpr ⟨fun s hs => ?_, fun pair hpair hlive => ?_⟩, fun live hlive s hs => ?_⟩
  · rw [← hroots] at hs
    exact (hbits s).mpr (reaches_of_mem hs (graph.roots_lt s hs))
  · have hmem := (hedges pair.1 pair.2).mpr hpair
    exact (hbits _).mpr (((hbits _).mp hlive).step hmem (graph.lt_of_mem_edges hmem))
  · obtain ⟨hroot, hedge⟩ := (hallows live).mp hlive
    exact ((hbits s).mp hs).induct (fun r hr _ => hroot r (hroots ▸ hr))
      fun a ha b hb _ => hedge (a, b) ((hedges a b).mp hb) ha

/-- A root leads to a section of one group; nothing leads to the other. -/
def twoGroups : List Call :=
  [.addEdge 0 2, .addRoot 0, .keepTogether [1, 2], .keepTogether [3, 4]]

theorem collected_least_twoGroups : ∃ graph st,
    (twoGroups.foldl call (new 5)).build = .ok graph ∧ CollectGarbage graph false st ∧
      IsLeast {live | ∀ c ∈ twoGroups, c.Asks live} {s | st.bits.get s = true} := by
  refine ⟨_, ⟨⟨[7], 5⟩, [], [1, 2, 0]⟩, rfl, ⟨List.replicate 17 0, by decide, rfl⟩, ?_⟩
  exact @collected_least 5 twoGroups _ rfl false _ ⟨List.replicate 17 0, by decide, rfl⟩

end Qld.Passes.GraphBuilder
