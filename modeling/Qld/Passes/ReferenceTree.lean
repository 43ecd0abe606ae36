import Mathlib.Data.List.Perm.Subperm
import Qld.Passes.Graph

/-!
# Shortest reference chains

The model of `ReferenceTree` and `why_live` of `passes/gc.rs`: a breadth-first search records, for
each section, the section that first reached it, and a chain is read back from these records.

* `Search.step`, `searchLoop`, `ReferenceTree.search` — the search, which stops early once a target
  is reached;
* `ReferenceTree.chain`, `whyLive` — the chain of a section;
* `Search.Inv` — the search follows `Discovery`, and the table holds the discoverers;
* `Search.inv_step`, `inv_searchLoop`, `finished_searchLoop` — each step keeps that, and the loop
  ends;
* `chain_eq_of_traced` — the chain is the way back of the discovery;
* `whyLive_shortest` — the chain is there when the section is live, and is a shortest one;
* `whyLive_lastId` — but not for the section numbered like the sentinel.
-/

namespace Qld.Passes

open Qld.Lib

/-- Sentinel parent for sections the search has not reached. -/
def UNREACHED : ℕ := 2 ^ 32 - 1

/-! ### The search -/

/-- The variables of the search. -/
structure Search where
  parent : List ℕ
  queue : List ℕ
  head : ℕ
  deriving DecidableEq, Repr

namespace Search

/-- Puts a section into the queue when the search has not reached it yet. -/
def visit (source : ℕ) (s : Search) (next : ℕ) : Search :=
  if s.parent[next]? = some UNREACHED then
    { s with parent := s.parent.set next source, queue := s.queue ++ [next] }
  else s

/-- The roots, in the order the graph lists them. -/
def start (graph : SectionGraph) : Search :=
  graph.roots.foldl (fun s root => s.visit root root)
    ⟨List.replicate graph.numSections UNREACHED, [], 0⟩

/-- Whether the target is reached. -/
def found (s : Search) (target : Option ℕ) : Bool :=
  match target with
  | some target => s.parent[target]? ≠ some UNREACHED
  | none => false

/-- One round of the loop; none when the loop ends. -/
def step (graph : SectionGraph) (target : Option ℕ) (s : Search) : Option Search :=
  match s.queue[s.head]? with
  | none => none
  | some current =>
    if s.found target then none
    else some ((graph.edges current).foldl (visit current) { s with head := s.head + 1 })

end Search

/-- The loop, for so many rounds at most. -/
def searchLoop (graph : SectionGraph) (target : Option ℕ) : ℕ → Search → Search
  | 0, s => s
  | rounds + 1, s =>
    match s.step graph target with
    | some s' => searchLoop graph target rounds s'
    | none => s

/-- Shortest reference chains from the roots to every reachable section. -/
structure ReferenceTree where
  /-- The section that first reached a section, the section itself for a root, or `UNREACHED`. -/
  parent : List ℕ
  deriving DecidableEq, Repr

namespace ReferenceTree

/-- Breadth-first search from the roots, stopping early once `target` is reached.  There is a round
for each section at most. -/
def search (graph : SectionGraph) (target : Option ℕ) : ReferenceTree :=
  ⟨(searchLoop graph target (graph.numSections + 1) (Search.start graph)).parent⟩

/-- Searches the whole graph. -/
def new (graph : SectionGraph) : ReferenceTree := search graph none

/-- The loop of `chain`: follows the parents, `bound` times at most. -/
def chainLoop (parent : List ℕ) : ℕ → ℕ → List ℕ → Option (List ℕ)
  | 0, _, _ => none
  | bound + 1, current, chain => do
    let p ← parent[current]?
    if p = current then return chain.reverse
    else chainLoop parent bound p (chain ++ [p])

/-- The chain `[root, ..., s]` along which a section is reachable. -/
def chain (tree : ReferenceTree) (s : ℕ) : Option (List ℕ) :=
  if (tree.parent[s]?).all (· == UNREACHED) then none
  else chainLoop tree.parent tree.parent.length s [s]

end ReferenceTree

/-- A shortest reference chain that explains why a section is live. -/
def whyLive (graph : SectionGraph) (s : ℕ) : Option (List ℕ) :=
  (ReferenceTree.search graph (some s)).chain s

/-! ### The table -/

namespace Search

/-- The sections of the queue are those that the table calls reached. -/
structure Recorded (n : ℕ) (s : Search) : Prop where
  length : s.parent.length = n
  nodup : s.queue.Nodup
  lt : ∀ x ∈ s.queue, x < n
  unreached : ∀ x < n, s.parent[x]? = some UNREACHED ↔ x ∉ s.queue

/-- What a search has found stays. -/
structure Extends (s s' : Search) : Prop where
  queue : s.queue <+: s'.queue
  parent : ∀ x p : ℕ, s.parent[x]? = some p → p ≠ UNREACHED → s'.parent[x]? = some p

theorem Extends.refl (s : Search) : Extends s s := ⟨List.prefix_refl _, fun _ _ h _ => h⟩

theorem Extends.trans {s t u : Search} (h : Extends s t) (h' : Extends t u) : Extends s u :=
  ⟨h.queue.trans h'.queue, fun x p hx hp => h'.parent x p (h.parent x p hx hp) hp⟩

variable {n : ℕ} {s : Search}

/-- A section that is met again changes nothing, and a new one goes to the end of the queue. -/
theorem visit_cases (h : Recorded n s) {source next : ℕ} (hsource : source ≠ UNREACHED)
    (hnext : next < n) :
    (next ∈ s.queue ∧ s.visit source next = s) ∨
      (next ∉ s.queue ∧
        s.visit source next = ⟨s.parent.set next source, s.queue ++ [next], s.head⟩ ∧
        Recorded n (s.visit source next) ∧ Extends s (s.visit source next)) := by
  have hlen : next < s.parent.length := h.length ▸ hnext
  by_cases hmem : next ∈ s.queue
  · refine .inl ⟨hmem, ?_⟩
    rw [visit, if_neg fun hun => (h.unreached next hnext).mp hun hmem]
  · have hun := (h.unreached next hnext).mpr hmem
    have hvisit : s.visit source next = ⟨s.parent.set next source, s.queue ++ [next], s.head⟩ := by
      rw [visit, if_pos hun]
    refine .inr ⟨hmem, hvisit, ?_, ?_⟩
    · rw [hvisit]
      refine ⟨?_, ?_, ?_, ?_⟩
      · rw [List.length_set]
        exact h.length
      · exact List.nodup_append.mpr ⟨h.nodup, List.nodup_singleton next, fun a ha b hb heq =>
          hmem (List.mem_singleton.mp hb ▸ heq ▸ ha)⟩
      · intro x hx
        rcases List.mem_append.mp hx with hx | hx
        · exact h.lt x hx
        · exact List.mem_singleton.mp hx ▸ hnext
      · intro x hx
        dsimp only
        rw [List.mem_append, List.mem_singleton]
        by_cases heq : next = x
        · rw [← heq, List.getElem?_set_self hlen]
          exact ⟨fun hs => absurd (Option.some.inj hs) hsource, fun hs => absurd (.inr rfl) hs⟩
        · rw [List.getElem?_set_ne heq, h.unreached x hx, or_iff_left (Ne.symm heq)]
    · rw [hvisit]
      refine ⟨List.prefix_append _ _, fun x p hx hp => ?_⟩
      have hne : next ≠ x := fun heq => hp (Option.some.inj (hx.symm.trans (heq ▸ hun)))
      dsimp only
      rw [List.getElem?_set_ne hne]
      exact hx

/-! ### The roots -/

/-- The state while the roots are visited: those visited are in the queue, as their own parents. -/
structure RootsInv (roots visited : List ℕ) (n : ℕ) (s : Search) : Prop where
  recorded : Recorded n s
  visited : ∀ x ∈ visited, x ∈ s.queue
  roots : ∀ x ∈ s.queue, x ∈ roots
  parent : ∀ x ∈ s.queue, s.parent[x]? = some x
  head : s.head = 0

theorem RootsInv.visit_root {roots visited : List ℕ} {root : ℕ} (h : RootsInv roots visited n s)
    (hroot : root ∈ roots) (hlt : root < n) (hne : root ≠ UNREACHED) :
    RootsInv roots (visited ++ [root]) n (s.visit root root) := by
  rcases visit_cases h.recorded hne hlt with ⟨hmem, heq⟩ | ⟨hnew, heq, hrec, hext⟩
  · rw [heq]
    refine ⟨h.recorded, fun x hx => ?_, h.roots, h.parent, h.head⟩
    rcases List.mem_append.mp hx with hx | hx
    · exact h.visited x hx
    · exact List.mem_singleton.mp hx ▸ hmem
  · have hlen : root < s.parent.length := h.recorded.length ▸ hlt
    refine ⟨hrec, ?_, ?_, ?_, by rw [heq]; exact h.head⟩
    · rw [heq]
      intro x hx
      rcases List.mem_append.mp hx with hx | hx
      · exact List.mem_append_left _ (h.visited x hx)
      · exact List.mem_append_right _ hx
    · rw [heq]
      intro x hx
      rcases List.mem_append.mp hx with hx | hx
      · exact h.roots x hx
      · exact List.mem_singleton.mp hx ▸ hroot
    · intro x hx
      by_cases heqx : root = x
      · rw [heq, ← heqx]
        exact List.getElem?_set_self hlen
      · have hold : x ∈ s.queue := by
          rw [heq] at hx
          rcases List.mem_append.mp hx with hx | hx
          · exact hx
          · exact absurd (List.mem_singleton.mp hx).symm heqx
        rw [heq]
        dsimp only
        rw [List.getElem?_set_ne heqx]
        exact h.parent x hold

theorem RootsInv.foldl {roots : List ℕ} (rest : List ℕ) :
    ∀ {visited : List ℕ} {s : Search}, RootsInv roots visited n s → (∀ x ∈ rest, x ∈ roots) →
      (∀ x ∈ rest, x < n ∧ x ≠ UNREACHED) →
      RootsInv roots (visited ++ rest) n (rest.foldl (fun s root => s.visit root root) s) := by
  induction rest with
  | nil => exact fun h _ _ => by rwa [List.append_nil]
  | cons root rest ih =>
    intro visited s h hsub hlt
    have hroot := hlt root List.mem_cons_self
    have hvisit := h.visit_root (hsub root List.mem_cons_self) hroot.1 hroot.2
    have hrest := ih hvisit (fun x hx => hsub x (List.mem_cons_of_mem _ hx))
      fun x hx => hlt x (List.mem_cons_of_mem _ hx)
    rwa [List.append_assoc] at hrest

theorem rootsInv_start (graph : SectionGraph) (hcount : graph.numSections < 2 ^ 32) :
    RootsInv graph.roots graph.roots graph.numSections (start graph) := by
  have hempty : RootsInv graph.roots [] graph.numSections
      ⟨List.replicate graph.numSections UNREACHED, [], 0⟩ := by
    refine ⟨⟨List.length_replicate, List.nodup_nil, List.forall_mem_nil _, fun x hx => ?_⟩,
      List.forall_mem_nil _, List.forall_mem_nil _, List.forall_mem_nil _, rfl⟩
    rw [List.getElem?_replicate, if_pos hx]
    exact iff_of_true rfl List.not_mem_nil
  refine hempty.foldl graph.roots (fun _ hx => hx) fun x hx => ?_
  have hlt := graph.roots_lt x hx
  have hle : graph.edgeTable.rows < 2 ^ 32 := hcount
  exact ⟨hlt, by unfold UNREACHED; omega⟩

/-! ### The rounds -/

/-- The search follows a discovery, and the table holds the discoverers. -/
structure Inv (graph : SectionGraph) (s : Search) (origin : List ℕ) (r head : ℕ) : Prop where
  recorded : Recorded graph.numSections s
  discovery : Discovery graph.edges graph.roots s.queue origin r head
  root : ∀ i < r, ∀ x : ℕ, s.queue[i]? = some x → s.parent[x]? = some x
  parent : ∀ k o x y : ℕ, origin[k]? = some o → s.queue[o]? = some x → s.queue[r + k]? = some y →
    s.parent[y]? = some x

theorem inv_start (graph : SectionGraph) (hcount : graph.numSections < 2 ^ 32) :
    Inv graph (start graph) [] (start graph).queue.length (start graph).head := by
  have h := rootsInv_start graph hcount
  rw [h.head]
  exact ⟨h.recorded,
    discovery_roots h.recorded.nodup fun x => ⟨h.roots x, h.visited x⟩,
    fun i _ x hx => h.parent x (List.mem_of_getElem? hx), fun _ _ _ _ ho => nomatch ho⟩

variable {graph : SectionGraph} {origin : List ℕ} {r i : ℕ}

theorem Inv.ne_unreached (h : Inv graph s origin r i) (hcount : graph.numSections < 2 ^ 32) {x : ℕ}
    (hx : x ∈ s.queue) : x ≠ UNREACHED := by
  have := h.recorded.lt x hx
  unfold UNREACHED
  omega

/-- **A neighbour of the section that is read.** -/
theorem Inv.visit_neighbour (h : Inv graph s origin r i) (hcount : graph.numSections < 2 ^ 32)
    {current next : ℕ} (hcurrent : s.queue[i]? = some current)
    (hnext : next ∈ graph.edges current) :
    ∃ origin', Inv graph (s.visit current next) origin' r i ∧
      next ∈ (s.visit current next).queue ∧ Extends s (s.visit current next) := by
  have hlt := graph.lt_of_mem_edges hnext
  have hne := h.ne_unreached hcount (List.mem_of_getElem? hcurrent)
  have hi := (List.getElem?_eq_some_iff.mp hcurrent).1
  have hlength := h.discovery.length
  rcases visit_cases h.recorded hne hlt with ⟨hmem, heq⟩ | ⟨hnew, heq, hrec, hext⟩
  · rw [heq]
    exact ⟨origin, h, hmem, .refl s⟩
  · have hlen : next < s.parent.length := h.recorded.length ▸ hlt
    have hdisc := h.discovery.push hcurrent hnext hnew
    have hold : ∀ {j x : ℕ}, j < s.queue.length → (s.queue ++ [next])[j]? = some x →
        s.queue[j]? = some x := fun hj hx => (Discovery.get_push hj).mp hx
    refine ⟨origin ++ [i], ⟨hrec, by rw [heq]; exact hdisc, ?_, ?_⟩, ?_, hext⟩
    · rw [heq]
      intro j hj x hx
      have hx' := hold (by omega) hx
      have hnex : next ≠ x := fun hx'' => hnew (hx'' ▸ List.mem_of_getElem? hx')
      dsimp only
      rw [List.getElem?_set_ne hnex]
      exact h.root j hj x hx'
    · rw [heq]
      intro k o x y ho hx hy
      dsimp only at hx hy ⊢
      rcases Nat.lt_or_ge k origin.length with hk | hk
      · rw [List.getElem?_append_left hk] at ho
        have holt := h.discovery.origin_lt k o ho
        have hy' := hold (by omega) hy
        have hney : next ≠ y := fun hy'' => hnew (hy'' ▸ List.mem_of_getElem? hy')
        rw [List.getElem?_set_ne hney]
        exact h.parent k o x y ho (hold (by omega) hx) hy'
      · -- The new section.
        have hk' : k = origin.length := by
          have := (List.getElem?_eq_some_iff.mp ho).1
          rw [List.length_append, List.length_singleton] at this
          omega
        subst hk'
        rw [List.getElem?_append_right (Nat.le_refl _), Nat.sub_self, List.getElem?_cons_zero,
          Option.some_inj] at ho
        subst ho
        rw [← hlength, List.getElem?_append_right (Nat.le_refl _), Nat.sub_self,
          List.getElem?_cons_zero, Option.some_inj] at hy
        obtain rfl := Option.some.inj (hcurrent.symm.trans (hold hi hx))
        rw [← hy]
        exact List.getElem?_set_self hlen
    · rw [heq]
      exact List.mem_append_right _ (List.mem_singleton_self next)

theorem Inv.foldl_visit (hcount : graph.numSections < 2 ^ 32) {current : ℕ} (targets : List ℕ) :
    ∀ {s : Search} {origin : List ℕ}, Inv graph s origin r i → s.queue[i]? = some current →
      (∀ t ∈ targets, t ∈ graph.edges current) →
      ∃ origin', Inv graph (targets.foldl (visit current) s) origin' r i ∧
        (∀ t ∈ targets, t ∈ (targets.foldl (visit current) s).queue) ∧
        Extends s (targets.foldl (visit current) s) := by
  induction targets with
  | nil => exact fun {s origin} h _ _ => ⟨origin, h, List.forall_mem_nil _, .refl s⟩
  | cons t targets ih =>
    intro s origin h hcurrent hsub
    obtain ⟨origin', hinv, hmem, hext⟩ := h.visit_neighbour hcount hcurrent (hsub t List.mem_cons_self)
    have hi := (List.getElem?_eq_some_iff.mp hcurrent).1
    have hcurrent' : (s.visit current t).queue[i]? = some current := by
      obtain ⟨rest, hrest⟩ := hext.queue
      rw [← hrest, List.getElem?_append_left hi]
      exact hcurrent
    obtain ⟨origin'', hinv', hall, hext'⟩ := ih hinv hcurrent' fun u hu =>
      hsub u (List.mem_cons_of_mem _ hu)
    refine ⟨origin'', hinv', List.forall_mem_cons.mpr ⟨?_, hall⟩, hext.trans hext'⟩
    exact hext'.queue.subset hmem

theorem head_foldl_visit (current : ℕ) (targets : List ℕ) :
    ∀ s : Search, (targets.foldl (visit current) s).head = s.head := by
  induction targets with
  | nil => exact fun _ => rfl
  | cons t targets ih =>
    intro s
    rw [List.foldl_cons, ih, visit]
    split <;> rfl

variable {target : Option ℕ}

/-- **One round.** -/
theorem inv_step (hcount : graph.numSections < 2 ^ 32) {s s' : Search}
    (h : Inv graph s origin r s.head) (hstep : s.step graph target = some s') :
    ∃ origin', Inv graph s' origin' r s'.head ∧ s'.head = s.head + 1 ∧ Extends s s' := by
  unfold step at hstep
  split at hstep
  · exact nomatch hstep
  next current hcurrent =>
  split at hstep
  · exact nomatch hstep
  · obtain rfl := Option.some.inj hstep
    have hstart : Inv graph { s with head := s.head + 1 } origin r s.head :=
      ⟨⟨h.recorded.length, h.recorded.nodup, h.recorded.lt, h.recorded.unreached⟩, h.discovery,
        h.root, h.parent⟩
    obtain ⟨origin', hinv, hall, hext⟩ := hstart.foldl_visit hcount (graph.edges current) hcurrent
      fun _ ht => ht
    have hi := (List.getElem?_eq_some_iff.mp hcurrent).1
    have hhead := head_foldl_visit current (graph.edges current) { s with head := s.head + 1 }
    refine ⟨origin', ?_, hhead, ⟨hext.queue, hext.parent⟩⟩
    rw [hhead]
    refine ⟨hinv.recorded, hinv.discovery.advance ?_ hall, hinv.root, hinv.parent⟩
    obtain ⟨rest, hrest⟩ := hext.queue
    rw [← hrest, List.getElem?_append_left hi]
    exact hcurrent

/-! ### The loop -/

theorem inv_searchLoop (hcount : graph.numSections < 2 ^ 32) (target : Option ℕ) (rounds : ℕ) :
    ∀ {s : Search} {origin : List ℕ}, Inv graph s origin r s.head →
      ∃ origin', Inv graph (searchLoop graph target rounds s) origin' r
          (searchLoop graph target rounds s).head ∧
        Extends s (searchLoop graph target rounds s) := by
  induction rounds with
  | zero => exact fun {s origin} h => ⟨origin, h, .refl s⟩
  | succ rounds ih =>
    intro s origin h
    rw [searchLoop]
    split
    · next s' hstep =>
      obtain ⟨origin', hinv, -, hext⟩ := inv_step hcount h hstep
      obtain ⟨origin'', hinv', hext'⟩ := ih hinv
      exact ⟨origin'', hinv', hext.trans hext'⟩
    · exact ⟨origin, h, .refl s⟩

theorem Inv.length_queue_le (h : Inv graph s origin r i) : s.queue.length ≤ graph.numSections := by
  have hsub : s.queue ⊆ List.range graph.numSections :=
    fun x hx => List.mem_range.mpr (h.recorded.lt x hx)
  have hperm := (h.recorded.nodup.subperm hsub).length_le
  rwa [List.length_range] at hperm

/-- **The loop ends within its rounds.** -/
theorem finished_searchLoop (hcount : graph.numSections < 2 ^ 32) (rounds : ℕ) :
    ∀ {s : Search} {origin : List ℕ}, Inv graph s origin r s.head →
      graph.numSections < rounds + s.head →
      (searchLoop graph target rounds s).step graph target = none := by
  induction rounds with
  | zero =>
    intro s origin h hlt
    have hle := h.length_queue_le
    rw [searchLoop, step, List.getElem?_eq_none (by omega)]
  | succ rounds ih =>
    intro s origin h hlt
    rw [searchLoop]
    split
    · next s' hstep =>
      obtain ⟨origin', hinv, hhead, -⟩ := inv_step hcount h hstep
      exact ih hinv (by omega)
    · next hstep => exact hstep

/-- What a search for a target finds is what the search of the whole graph finds on the way. -/
theorem searchLoop_none_eq (target : Option ℕ) (rounds : ℕ) : ∀ s : Search, ∃ more,
    searchLoop graph none rounds s = searchLoop graph none more (searchLoop graph target rounds s) := by
  induction rounds with
  | zero => exact fun s => ⟨0, rfl⟩
  | succ rounds ih =>
    intro s
    cases hstep : s.step graph target with
    | none =>
      refine ⟨rounds + 1, ?_⟩
      have hloop : searchLoop graph target (rounds + 1) s = s := by rw [searchLoop, hstep]
      rw [hloop]
    | some s' =>
      have hnone : s.step graph none = some s' := by
        unfold step at hstep ⊢
        cases hget : s.queue[s.head]? with
        | none => rw [hget] at hstep; exact nomatch hstep
        | some current =>
          rw [hget] at hstep
          dsimp only at hstep ⊢
          rw [if_neg (show ¬ s.found none = true from Bool.false_ne_true)]
          split at hstep
          · exact nomatch hstep
          · exact hstep
      obtain ⟨more, hmore⟩ := ih s'
      refine ⟨more, ?_⟩
      rw [searchLoop, searchLoop, hnone, hstep]
      exact hmore

/-- A search that is over has read its queue, or has found its target. -/
theorem step_eq_none (h : s.step graph target = none) :
    s.queue.length ≤ s.head ∨ s.found target = true := by
  unfold step at h
  split at h
  · next hget => exact .inl (List.getElem?_eq_none_iff.mp hget)
  · split at h
    · next hfound => exact .inr hfound
    · exact nomatch h

theorem searchLoop_eq_self (h : s.step graph target = none) (rounds : ℕ) :
    searchLoop graph target rounds s = s := by
  cases rounds with
  | zero => rfl
  | succ rounds => rw [searchLoop, h]

end Search

/-! ### The chain -/

open Search ReferenceTree

section

variable {graph : SectionGraph} {s : Search} {origin : List ℕ} {r head : ℕ}

variable {s' : Search} {j x : ℕ} {path : List ℕ}

/-- The loop of `chain` goes the way back of the discovery, also in the table of a later state. -/
theorem chainLoop_eq (h : Inv graph s origin r head) (hcount : graph.numSections < 2 ^ 32)
    (hext : Extends s s') (htraced : Traced s.queue origin r j path) :
    ∀ (x bound : ℕ) (chain : List ℕ),
      s.queue[j]? = some x → path.length ≤ bound →
      chainLoop s'.parent bound x (chain ++ [x]) = some (path ++ chain.reverse) := by
  induction htraced with
  | @root j y hj hy =>
    intro x bound chain hx hbound
    obtain rfl := Option.some.inj (hy.symm.trans hx)
    obtain ⟨bound, rfl⟩ := Nat.exists_eq_add_of_le' hbound
    have hparent := hext.parent y y (h.root j hj y hy)
      (h.ne_unreached hcount (List.mem_of_getElem? hy))
    rw [List.length_singleton, chainLoop, hparent, List.reverse_append]
    exact if_pos rfl
  | @step k o path y ho hy htraced ih =>
    intro x bound chain hx hbound
    obtain rfl := Option.some.inj (hy.symm.trans hx)
    rw [List.length_append, List.length_singleton] at hbound
    obtain ⟨bound, rfl⟩ := Nat.exists_eq_add_of_le' (Nat.le_of_add_left_le hbound)
    obtain ⟨p, hp, -⟩ := htraced.last
    have hparent := hext.parent y p (h.parent k o p y ho hp hy)
      (h.ne_unreached hcount (List.mem_of_getElem? hp))
    have hne : p ≠ y := by
      rintro rfl
      have hlt := h.discovery.origin_lt k o ho
      obtain ⟨ho', hget⟩ := List.getElem?_eq_some_iff.mp hp
      obtain ⟨hk', hget'⟩ := List.getElem?_eq_some_iff.mp hy
      have := h.discovery.nodup.getElem_inj_iff.mp (hget.trans hget'.symm)
      omega
    have hrest := ih p bound (chain ++ [y]) hp (by omega)
    rw [chainLoop, hparent]
    dsimp only [Option.bind_eq_bind, Option.bind_some]
    rw [if_neg hne, hrest, List.reverse_append, List.append_assoc]
    rfl

/-- **The chain of a section that the search has reached.** -/
theorem chain_eq_of_traced (h : Inv graph s origin r head) (hcount : graph.numSections < 2 ^ 32)
    (hext : Extends s s') (hlen : s'.parent.length = graph.numSections) (hx : s.queue[j]? = some x)
    (htraced : Traced s.queue origin r j path) :
    (ReferenceTree.mk s'.parent).chain x = some path := by
  have hj := (List.getElem?_eq_some_iff.mp hx).1
  have hmem := List.mem_of_getElem? hx
  have hlt := h.recorded.lt x hmem
  have hreached : (s'.parent[x]?).all (· == UNREACHED) = false := by
    have hxlen : x < s.parent.length := h.recorded.length ▸ hlt
    have hne : s.parent[x] ≠ UNREACHED := fun hun =>
      (h.recorded.unreached x hlt).mp (List.getElem?_eq_some_iff.mpr ⟨hxlen, hun⟩) hmem
    rw [hext.parent x _ (List.getElem?_eq_getElem hxlen) hne, Option.all_some]
    exact beq_eq_false_iff_ne.mpr hne
  have hbound : path.length ≤ s'.parent.length := by
    have := htraced.length_le_succ h.discovery
    have := h.length_queue_le
    omega
  have hloop := chainLoop_eq h hcount hext htraced x _ [] hx hbound
  rw [List.nil_append, List.reverse_nil, List.append_nil] at hloop
  rw [ReferenceTree.chain, hreached, if_neg Bool.false_ne_true]
  exact hloop

/-- The chain of a section that it has not reached. -/
theorem chain_of_notMem (h : Inv graph s origin r head) (hmem : x ∉ s.queue) :
    (s.parent[x]? = none ∨ s.parent[x]? = some UNREACHED) ∧
      (ReferenceTree.mk s.parent).chain x = none := by
  have hun : s.parent[x]? = none ∨ s.parent[x]? = some UNREACHED := by
    rcases Nat.lt_or_ge x graph.numSections with hlt | hge
    · exact .inr ((h.recorded.unreached x hlt).mpr hmem)
    · exact .inl (List.getElem?_eq_none (h.recorded.length ▸ hge))
  refine ⟨hun, ?_⟩
  rw [ReferenceTree.chain, if_pos]
  rcases hun with hun | hun <;> rw [hun] <;> rfl

end

/-- The search of a graph, with a target or without; going on from it gives the whole search. -/
theorem search_spec (graph : SectionGraph) (hcount : graph.numSections < 2 ^ 32)
    (target : Option ℕ) : ∃ s origin r, ReferenceTree.search graph target = ⟨s.parent⟩ ∧
      Inv graph s origin r s.head ∧ s.step graph target = none ∧
      ∃ more, ReferenceTree.new graph = ⟨(searchLoop graph none more s).parent⟩ := by
  have hstart := inv_start graph hcount
  obtain ⟨origin, hinv, -⟩ := inv_searchLoop hcount target (graph.numSections + 1) hstart
  obtain ⟨more, hmore⟩ := searchLoop_none_eq target (graph.numSections + 1) (start graph)
  exact ⟨_, origin, _, rfl, hinv,
    finished_searchLoop hcount (graph.numSections + 1) hstart (by omega), more,
    congrArg (fun s => ReferenceTree.mk s.parent) hmore⟩

/-- **The early stop does not change the chain.** -/
theorem whyLive_eq (graph : SectionGraph) (hcount : graph.numSections < 2 ^ 32) (x : ℕ) :
    whyLive graph x = (ReferenceTree.new graph).chain x := by
  obtain ⟨s, origin, r, hsearch, hinv, hover, more, hmore⟩ := search_spec graph hcount (some x)
  obtain ⟨origin', hinv', hext⟩ := inv_searchLoop hcount none more hinv
  rw [whyLive, hsearch, hmore]
  by_cases hmem : x ∈ s.queue
  · obtain ⟨j, hj, hget⟩ := List.mem_iff_getElem.mp hmem
    have hx : s.queue[j]? = some x := List.getElem?_eq_some_iff.mpr ⟨hj, hget⟩
    obtain ⟨path, htraced⟩ := hinv.discovery.exists_traced j hj
    rw [chain_eq_of_traced hinv hcount (.refl s) hinv.recorded.length hx htraced,
      chain_eq_of_traced hinv hcount hext hinv'.recorded.length hx htraced]
  · rcases step_eq_none hover with hread | hfound
    · -- The search has read its queue, so that nothing is left to do.
      have hnone : s.step graph none = none := by
        rw [step, List.getElem?_eq_none hread]
      rw [searchLoop_eq_self hnone]
    · -- The target is found, so that it is not a section at all.
      obtain ⟨hun, hchain⟩ := chain_of_notMem hinv hmem
      have hne : s.parent[x]? ≠ some UNREACHED := of_decide_eq_true hfound
      have hge := List.getElem?_eq_none_iff.mp (hun.resolve_right hne)
      have hmem' : x ∉ (searchLoop graph none more s).queue := fun hmem' => by
        have := hinv'.recorded.lt x hmem'
        have := hinv.recorded.length
        omega
      rw [hchain, (chain_of_notMem hinv' hmem').2]

/-- **The chain of `why_live` is there when the section is live, and is a shortest one (proved).** -/
theorem whyLive_shortest (graph : SectionGraph) (hcount : graph.numSections < 2 ^ 32) (x : ℕ) :
    (whyLive graph x = none ↔ ¬ graph.Reachable x) ∧
      (∀ chain, whyLive graph x = some chain →
        graph.Chain chain x ∧ ∀ other, graph.Chain other x → chain.length ≤ other.length) ∧
      whyLive graph x = (ReferenceTree.new graph).chain x ∧
      ∀ target y, (ReferenceTree.search graph target).chain y = none →
        (ReferenceTree.search graph target).parent[y]? = none ∨
          (ReferenceTree.search graph target).parent[y]? = some UNREACHED := by
  obtain ⟨s, origin, r, hsearch, hinv, hover, -⟩ := search_spec graph hcount none
  have hread : s.queue.length ≤ s.head :=
    (step_eq_none hover).resolve_right (show ¬ s.found none = true from Bool.false_ne_true)
  have hmem : x ∈ s.queue ↔ graph.Reachable x := hinv.discovery.mem_queue_iff hread
  have hwhy := whyLive_eq graph hcount x
  have hnew : ReferenceTree.new graph = ⟨s.parent⟩ := hsearch
  have hfound : ∀ j, s.queue[j]? = some x → ∃ path, Traced s.queue origin r j path ∧
      whyLive graph x = some path := fun j hx => by
    obtain ⟨path, htraced⟩ := hinv.discovery.exists_traced j (List.getElem?_eq_some_iff.mp hx).1
    refine ⟨path, htraced, ?_⟩
    rw [hwhy, hnew]
    exact chain_eq_of_traced hinv hcount (.refl s) hinv.recorded.length hx htraced
  have hlost : x ∉ s.queue → whyLive graph x = none := fun hnot => by
    rw [hwhy, hnew]
    exact (chain_of_notMem hinv hnot).2
  refine ⟨⟨fun hnone hreach => ?_, fun hdead => hlost fun hin => hdead (hmem.mp hin)⟩,
    fun chain hchain => ?_, hwhy, fun target y hnone => ?_⟩
  · obtain ⟨j, hx⟩ := List.mem_iff_getElem?.mp (hmem.mpr hreach)
    obtain ⟨path, -, hpath⟩ := hfound j hx
    exact nomatch hnone.symm.trans hpath
  · have hin : x ∈ s.queue := by
      by_contra hnot
      exact nomatch (hlost hnot).symm.trans hchain
    obtain ⟨j, hx⟩ := List.mem_iff_getElem?.mp hin
    obtain ⟨path, htraced, hpath⟩ := hfound j hx
    obtain rfl := Option.some.inj (hpath.symm.trans hchain)
    exact ⟨htraced.isPath hinv.discovery hx, fun other => htraced.length_le hinv.discovery hread hx⟩
  · obtain ⟨s', origin', r', hsearch', hinv', -, -⟩ := search_spec graph hcount target
    rw [hsearch'] at hnone ⊢
    by_cases hin : y ∈ s'.queue
    · obtain ⟨j, hy⟩ := List.mem_iff_getElem?.mp hin
      obtain ⟨path, htraced⟩ := hinv'.discovery.exists_traced j (List.getElem?_eq_some_iff.mp hy).1
      exact nomatch hnone.symm.trans
        (chain_eq_of_traced hinv' hcount (.refl s') hinv'.recorded.length hy htraced)
    · exact (chain_of_notMem hinv' hin).1

/-- A builder of a diamond with a long way around: `0` leads to `3` along `2`, `1`, and `4`, `5`. -/
def diamond : GraphBuilder :=
  ⟨⟨6, [(0, 4), (4, 5), (5, 3), (0, 2), (0, 1), (1, 3), (2, 3)]⟩, [0]⟩

theorem whyLive_shortest_diamond : ∃ graph, diamond.build = .ok graph ∧
    whyLive graph 3 = some [0, 2, 3] ∧
    ∀ other, graph.Chain other 3 → 3 ≤ other.length := by
  refine ⟨_, rfl, by decide, ?_⟩
  exact ((whyLive_shortest _ (by decide) 3).2.1 [0, 2, 3] (by decide)).2

/-- A root numbered like the sentinel never counts as reached. -/
theorem whyLive_unreached {graph : SectionGraph} (hroots : graph.roots = [UNREACHED])
    (hedges : graph.edges UNREACHED = []) (hlt : UNREACHED < graph.numSections) :
    whyLive graph UNREACHED = none := by
  have hget : (List.replicate graph.numSections UNREACHED)[UNREACHED]? = some UNREACHED := by
    rw [List.getElem?_replicate, if_pos hlt]
  have hstart : start graph =
      ⟨(List.replicate graph.numSections UNREACHED).set UNREACHED UNREACHED, [UNREACHED], 0⟩ := by
    rw [Search.start, hroots, List.foldl_cons, List.foldl_nil, visit, if_pos hget]
    rfl
  obtain ⟨p, hp⟩ : ∃ p, p = (List.replicate graph.numSections UNREACHED).set UNREACHED UNREACHED :=
    ⟨_, rfl⟩
  have hpget : p[UNREACHED]? = some UNREACHED := by
    rw [hp, List.getElem?_set_self (by rwa [List.length_replicate])]
  have hfound : ∀ queue i, Search.found ⟨p, queue, i⟩ (some UNREACHED) = false := fun queue i =>
    decide_eq_false (fun h => h hpget)
  have hstep : Search.step graph (some UNREACHED) ⟨p, [UNREACHED], 0⟩ =
      some ⟨p, [UNREACHED], 1⟩ := by
    rw [step]
    dsimp only [List.getElem?_cons_zero]
    rw [hfound, if_neg Bool.false_ne_true, hedges]
    rfl
  have hover : Search.step graph (some UNREACHED) ⟨p, [UNREACHED], 1⟩ = none := rfl
  have hloop : searchLoop graph (some UNREACHED) (graph.numSections + 1) (start graph) =
      ⟨p, [UNREACHED], 1⟩ := by
    rw [hstart, ← hp, searchLoop, hstep]
    exact searchLoop_eq_self hover _
  rw [whyLive, ReferenceTree.search, hloop, ReferenceTree.chain]
  dsimp only
  rw [hpget]
  rfl

/-- **The section numbered like the sentinel is live and has no chain.** -/
theorem whyLive_lastId : ∃ graph, SectionGraph.new (Csr.empty (2 ^ 32)) [2 ^ 32 - 1] = .ok graph ∧
    graph.Reachable (2 ^ 32 - 1) ∧ whyLive graph (2 ^ 32 - 1) = none := by
  obtain ⟨graph, hnew⟩ := SectionGraph.exists_new_eq_ok (Csr.empty (2 ^ 32))
    [2 ^ 32 - 1] (List.forall_mem_nil _) fun t ht => by
      rw [Csr.rows_empty, List.mem_singleton.mp ht]
      decide
  obtain ⟨htable, hroots⟩ := SectionGraph.new_eq_ok hnew
  refine ⟨graph, hnew, ⟨2 ^ 32 - 1, by rw [hroots]; exact List.mem_singleton_self _, .refl⟩, ?_⟩
  refine whyLive_unreached hroots ?_ ?_
  · rw [SectionGraph.edges, htable, Csr.row_empty]
  · rw [SectionGraph.numSections, htable, Csr.rows_empty]
    decide

end Qld.Passes
