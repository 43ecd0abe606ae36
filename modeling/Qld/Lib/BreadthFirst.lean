import Mathlib.Data.List.Chain
import Mathlib.Data.List.Nodup

/-!
# Breadth-first discovery

A search reads the nodes of a queue one after the other and puts the neighbours that it has not met
yet at the end.  The roots are the first `r` nodes of the queue; `origin` gives, for each node
behind them, the position of the node that discovered it.

* `IsPath` — a path from a root to a node; `Reached` — there is one;
* `Discovery` — what such a search keeps, when the nodes before position `head` have been read;
* `Discovery.push`, `Discovery.advance` — one discovery, and the end of a node's neighbours;
* `Traced` — the path back from a position of the queue to a root;
* `Traced.isPath`, `Traced.length_le` — it is a path, and no path to the node is shorter;
* `Discovery.mem_queue_iff` — a finished search has met the nodes that are reached.
-/

namespace Qld.Lib

variable {α : Type*} {next : α → List α} {roots : List α}

/-! ### Paths -/

/-- A path from a root to `x`. -/
structure IsPath (next : α → List α) (roots : List α) (path : List α) (x : α) : Prop where
  head : ∃ root ∈ roots, path.head? = some root
  chain : path.IsChain fun a b => b ∈ next a
  last : path.getLast? = some x

/-- Some root leads to `x`. -/
def Reached (next : α → List α) (roots : List α) (x : α) : Prop :=
  ∃ root ∈ roots, Relation.ReflTransGen (fun a b => b ∈ next a) root x

theorem isPath_singleton {root : α} (h : root ∈ roots) : IsPath next roots [root] root :=
  ⟨⟨root, h, rfl⟩, List.isChain_singleton root, rfl⟩

variable {path : List α} {x y : α}

theorem IsPath.snoc (h : IsPath next roots path x) (hy : y ∈ next x) :
    IsPath next roots (path ++ [y]) y where
  head := by
    obtain ⟨root, hroot, hhead⟩ := h.head
    exact ⟨root, hroot, by rw [List.head?_append, hhead]; rfl⟩
  chain := by
    refine List.isChain_append.mpr ⟨h.chain, List.isChain_singleton y, fun a ha b hb => ?_⟩
    rw [h.last, Option.mem_some_iff] at ha
    rw [List.head?_cons, Option.mem_some_iff] at hb
    rw [← ha, ← hb]
    exact hy
  last := List.getLast?_concat

/-- A path ends at a root, or one step behind a shorter path. -/
theorem IsPath.cases (h : IsPath next roots path y) :
    (y ∈ roots ∧ path = [y]) ∨ ∃ before x, IsPath next roots before x ∧ y ∈ next x ∧
      path = before ++ [y] := by
  obtain ⟨root, hroot, hhead⟩ := h.head
  rcases List.eq_nil_or_concat path with rfl | ⟨before, z, rfl⟩
  · exact nomatch hhead
  · rw [List.concat_eq_append] at h hhead ⊢
    have hlast := h.last
    rw [List.getLast?_concat, Option.some_inj] at hlast
    subst hlast
    rcases List.eq_nil_or_concat before with rfl | ⟨start, x, rfl⟩
    · rw [List.nil_append, List.head?_cons, Option.some_inj] at hhead
      exact .inl ⟨hhead ▸ hroot, rfl⟩
    · rw [List.concat_eq_append] at h hhead ⊢
      obtain ⟨hchain, -, hstep⟩ := List.isChain_append.mp h.chain
      refine .inr ⟨start ++ [x], x, ⟨⟨root, hroot, ?_⟩, hchain, List.getLast?_concat⟩, ?_, rfl⟩
      · rw [List.head?_append_of_ne_nil _ (by simp)] at hhead
        exact hhead
      · exact hstep x (by rw [List.getLast?_concat]; rfl) z rfl

theorem IsPath.reached : ∀ {x : α}, IsPath next roots path x →
    Reached next roots x := by
  induction h : path.length generalizing path with
  | zero =>
    intro x hpath
    rw [List.length_eq_zero_iff.mp h] at hpath
    exact nomatch hpath.last
  | succ n ih =>
    intro x hpath
    rcases hpath.cases with ⟨hroot, -⟩ | ⟨before, y, hbefore, hy, rfl⟩
    · exact ⟨x, hroot, .refl⟩
    · rw [List.length_append, List.length_singleton, Nat.add_right_cancel_iff] at h
      obtain ⟨root, hroot, hsteps⟩ := ih h hbefore
      exact ⟨root, hroot, hsteps.tail hy⟩

theorem exists_isPath_of_reached (h : Reached next roots x) :
    ∃ path, IsPath next roots path x := by
  obtain ⟨root, hroot, hsteps⟩ := h
  induction hsteps with
  | refl => exact ⟨[root], isPath_singleton hroot⟩
  | tail _ hstep ih =>
    obtain ⟨path, hpath⟩ := ih
    exact ⟨_, hpath.snoc hstep⟩

/-! ### Discovery -/

/-- What a search keeps: the nodes before `head` have been read. -/
structure Discovery (next : α → List α) (roots queue : List α) (origin : List ℕ) (r head : ℕ) :
    Prop where
  nodup : queue.Nodup
  roots_mem : ∀ x ∈ roots, ∃ i < r, queue[i]? = some x
  mem_roots : ∀ i < r, ∀ x, queue[i]? = some x → x ∈ roots
  length : queue.length = r + origin.length
  sorted : origin.Pairwise (· ≤ ·)
  origin_le : ∀ o ∈ origin, o ≤ head
  origin_lt : ∀ k o, origin[k]? = some o → o < r + k
  edge : ∀ k o x y, origin[k]? = some o → queue[o]? = some x → queue[r + k]? = some y → y ∈ next x
  /-- No node before the one that discovered `y` leads to it. -/
  first : ∀ k o y, origin[k]? = some o → queue[r + k]? = some y →
    ∀ i < o, ∀ z, queue[i]? = some z → y ∉ next z
  closed : ∀ i < head, ∀ x, queue[i]? = some x → ∀ y ∈ next x, y ∈ queue

theorem discovery_roots {queue : List α} (hnodup : queue.Nodup)
    (hmem : ∀ x, x ∈ queue ↔ x ∈ roots) : Discovery next roots queue [] queue.length 0 where
  nodup := hnodup
  roots_mem := fun x hx => by
    obtain ⟨i, hi, rfl⟩ := List.mem_iff_getElem.mp ((hmem x).mpr hx)
    exact ⟨i, hi, List.getElem?_eq_getElem hi⟩
  mem_roots := fun i _ x hx => (hmem x).mp (List.mem_of_getElem? hx)
  length := rfl
  sorted := List.Pairwise.nil
  origin_le := fun _ ho => nomatch ho
  origin_lt := fun _ _ ho => nomatch ho
  edge := fun _ _ _ _ ho => nomatch ho
  first := fun _ _ _ ho => nomatch ho
  closed := fun _ hi => nomatch hi

namespace Discovery

variable {queue : List α} {origin : List ℕ} {r head : ℕ}

theorem get_push {i : ℕ} {x y : α} (hi : i < queue.length) :
    (queue ++ [y])[i]? = some x ↔ queue[i]? = some x := by
  rw [List.getElem?_append_left hi]

/-- **A new neighbour of the node at `head` goes to the end of the queue.** -/
theorem push (h : Discovery next roots queue origin r head) {x y : α}
    (hx : queue[head]? = some x) (hy : y ∈ next x) (hnew : y ∉ queue) :
    Discovery next roots (queue ++ [y]) (origin ++ [head]) r head := by
  have hhead := (List.getElem?_eq_some_iff.mp hx).1
  have hlen := h.length
  -- An entry of `origin` is an old one, or that of the new node.
  have horigin : ∀ {k o : ℕ}, (origin ++ [head])[k]? = some o →
      (origin[k]? = some o ∧ k < origin.length) ∨ (k = origin.length ∧ o = head) := by
    intro k o hk
    rcases Nat.lt_trichotomy k origin.length with hlt | heq | hgt
    · rw [List.getElem?_append_left hlt] at hk
      exact .inl ⟨hk, hlt⟩
    · rw [heq, List.getElem?_append_right (Nat.le_refl _), Nat.sub_self, List.getElem?_cons_zero,
        Option.some_inj] at hk
      exact .inr ⟨heq, hk.symm⟩
    · rw [List.getElem?_eq_none (by rw [List.length_append, List.length_singleton]; omega)] at hk
      exact nomatch hk
  have hlast : (queue ++ [y])[r + origin.length]? = some y := by
    rw [← hlen, List.getElem?_append_right (Nat.le_refl _), Nat.sub_self]
    rfl
  refine ⟨?_, ?_, ?_, ?_, ?_, ?_, ?_, ?_, ?_, ?_⟩
  · exact List.nodup_append.mpr ⟨h.nodup, List.nodup_singleton y, fun a ha b hb heq =>
      hnew (List.mem_singleton.mp hb ▸ heq ▸ ha)⟩
  · intro z hz
    obtain ⟨i, hi, hget⟩ := h.roots_mem z hz
    exact ⟨i, hi, (get_push (by omega)).mpr hget⟩
  · exact fun i hi z hz => h.mem_roots i hi z ((get_push (by omega)).mp hz)
  · rw [List.length_append, List.length_append, hlen]
    exact Nat.add_assoc _ _ _
  · refine List.pairwise_append.mpr ⟨h.sorted, List.pairwise_singleton _ _, fun a ha b hb => ?_⟩
    exact List.mem_singleton.mp hb ▸ h.origin_le a ha
  · intro o ho
    rcases List.mem_append.mp ho with ho | ho
    · exact h.origin_le o ho
    · exact Nat.le_of_eq (List.mem_singleton.mp ho)
  · intro k o ho
    rcases horigin ho with ⟨hold, -⟩ | ⟨rfl, rfl⟩
    · exact h.origin_lt k o hold
    · omega
  · intro k o a b ho ha hb
    rcases horigin ho with ⟨hold, hk⟩ | ⟨rfl, rfl⟩
    · have hlt := h.origin_lt k o hold
      exact h.edge k o a b hold ((get_push (by omega)).mp ha) ((get_push (by omega)).mp hb)
    · obtain rfl := Option.some.inj (hx.symm.trans ((get_push hhead).mp ha))
      obtain rfl := Option.some.inj (hlast.symm.trans hb)
      exact hy
  · intro k o b ho hb i hi z hz
    rcases horigin ho with ⟨hold, hk⟩ | ⟨rfl, rfl⟩
    · have hlt := h.origin_lt k o hold
      exact h.first k o b hold ((get_push (by omega)).mp hb) i hi z ((get_push (by omega)).mp hz)
    · obtain rfl := Option.some.inj (hlast.symm.trans hb)
      intro hmem
      exact hnew (h.closed i hi z ((get_push (by omega)).mp hz) y hmem)
  · intro i hi a ha b hb
    exact List.mem_append_left _ (h.closed i hi a ((get_push (by omega)).mp ha) b hb)

/-- **The node at `head` has been read.** -/
theorem advance (h : Discovery next roots queue origin r head) {x : α}
    (hx : queue[head]? = some x) (hall : ∀ y ∈ next x, y ∈ queue) :
    Discovery next roots queue origin r (head + 1) where
  nodup := h.nodup
  roots_mem := h.roots_mem
  mem_roots := h.mem_roots
  length := h.length
  sorted := h.sorted
  origin_le := fun o ho => Nat.le_succ_of_le (h.origin_le o ho)
  origin_lt := h.origin_lt
  edge := h.edge
  first := h.first
  closed := by
    intro i hi z hz
    rcases Nat.lt_succ_iff_lt_or_eq.mp hi with hlt | rfl
    · exact h.closed i hlt z hz
    · obtain rfl := Option.some.inj (hx.symm.trans hz)
      exact hall

end Discovery

/-! ### The way back -/

/-- The path from a root to the node at position `j` of the queue, along the origins. -/
inductive Traced (queue : List α) (origin : List ℕ) (r : ℕ) : ℕ → List α → Prop
  | root {j : ℕ} {x : α} : j < r → queue[j]? = some x → Traced queue origin r j [x]
  | step {k o : ℕ} {path : List α} {y : α} : origin[k]? = some o → queue[r + k]? = some y →
      Traced queue origin r o path → Traced queue origin r (r + k) (path ++ [y])

section

variable {queue : List α} {origin : List ℕ} {r head : ℕ}

variable {j : ℕ} {path : List α}

theorem Traced.last (h : Traced queue origin r j path) :
    ∃ x, queue[j]? = some x ∧ path.getLast? = some x := by
  cases h with
  | root _ hx => exact ⟨_, hx, rfl⟩
  | step _ hy _ => exact ⟨_, hy, List.getLast?_concat⟩

theorem Discovery.exists_traced (h : Discovery next roots queue origin r head) (j : ℕ) :
    j < queue.length → ∃ path, Traced queue origin r j path := by
  induction j using Nat.strongRecOn with
  | _ j ih =>
    intro hj
    have hlen := h.length
    rcases Nat.lt_or_ge j r with hlt | hge
    · exact ⟨_, .root hlt (List.getElem?_eq_getElem hj)⟩
    · obtain ⟨k, rfl⟩ := Nat.exists_eq_add_of_le hge
      have hk : k < origin.length := by omega
      have horigin : origin[k]? = some origin[k] := List.getElem?_eq_getElem hk
      have hlt := h.origin_lt k _ horigin
      obtain ⟨path, hpath⟩ := ih _ hlt (by omega)
      exact ⟨_, .step horigin (List.getElem?_eq_getElem hj) hpath⟩

variable {x : α}

/-- **The way back is a path.** -/
theorem Traced.isPath (hd : Discovery next roots queue origin r head)
    (h : Traced queue origin r j path) (hx : queue[j]? = some x) :
    IsPath next roots path x := by
  induction h generalizing x with
  | root hj hy =>
    obtain rfl := Option.some.inj (hy.symm.trans hx)
    exact isPath_singleton (hd.mem_roots _ hj _ hy)
  | step ho hy htraced ih =>
    obtain rfl := Option.some.inj (hy.symm.trans hx)
    obtain ⟨z, hz, -⟩ := htraced.last
    exact (ih hz).snoc (hd.edge _ _ _ _ ho hz hy)

theorem Traced.length_le_succ (hd : Discovery next roots queue origin r head)
    (h : Traced queue origin r j path) : path.length ≤ j + 1 := by
  induction h with
  | root => exact Nat.le_add_left 1 _
  | step ho _ _ ih =>
    have := hd.origin_lt _ _ ho
    rw [List.length_append, List.length_singleton]
    omega

/-- **Nodes that come later are not nearer.** -/
theorem Traced.mono (hd : Discovery next roots queue origin r head) {path' : List α}
    (h : Traced queue origin r j path') : ∀ {i : ℕ} {path : List α}, i ≤ j →
      Traced queue origin r i path → path.length ≤ path'.length := by
  induction h with
  | root hj _ =>
    intro i path hij hpath
    cases hpath with
    | root => exact Nat.le_refl _
    | step => omega
  | @step k o path' y ho _ _ ih =>
    intro i path hij hpath
    cases hpath with
    | root => rw [List.length_append, List.length_singleton]; exact Nat.le_add_left _ _
    | @step k' o' path z ho' _ htraced =>
      have hle : o' ≤ o := by
        rcases Nat.lt_or_ge k' k with hlt | hge
        · obtain ⟨hk', rfl⟩ := List.getElem?_eq_some_iff.mp ho'
          obtain ⟨hk, rfl⟩ := List.getElem?_eq_some_iff.mp ho
          exact List.pairwise_iff_getElem.mp hd.sorted k' k hk' hk hlt
        · obtain rfl : k' = k := by omega
          exact Nat.le_of_eq (Option.some.inj (ho'.symm.trans ho))
      have := ih hle htraced
      rw [List.length_append, List.length_append]
      exact Nat.add_le_add_right this 1

/-- What a path leads to has been read, and its way back is not longer. -/
theorem Discovery.exists_le_of_isPath (hd : Discovery next roots queue origin r head)
    (hhead : queue.length ≤ head) {n : ℕ} : ∀ {x : α} {path : List α}, path.length = n →
      IsPath next roots path x → ∃ j, queue[j]? = some x ∧
        ∀ traced, Traced queue origin r j traced → traced.length ≤ path.length := by
  induction n with
  | zero =>
    intro x path hlen hpath
    rw [List.length_eq_zero_iff.mp hlen] at hpath
    exact nomatch hpath.last
  | succ n ih =>
    intro y path hlen hpath
    have hpos : 1 ≤ path.length := by omega
    rcases hpath.cases with ⟨hroot, -⟩ | ⟨before, x, hbefore, hy, rfl⟩
    · obtain ⟨i, hi, hget⟩ := hd.roots_mem y hroot
      refine ⟨i, hget, fun traced ht => ?_⟩
      cases ht with
      | root => exact hpos
      | step => omega
    · rw [List.length_append, List.length_singleton, Nat.add_right_cancel_iff] at hlen
      obtain ⟨i, hi, hshort⟩ := ih hlen hbefore
      have hilt := (List.getElem?_eq_some_iff.mp hi).1
      obtain ⟨j, hjlt, hj⟩ := List.mem_iff_getElem.mp (hd.closed i (by omega) x hi y hy)
      have hj' : queue[j]? = some y := List.getElem?_eq_some_iff.mpr ⟨hjlt, hj⟩
      refine ⟨j, hj', fun traced ht => ?_⟩
      rw [List.length_append, List.length_singleton]
      cases ht with
      | root => exact Nat.le_add_left _ _
      | @step k o path z ho hz htraced =>
        obtain rfl := Option.some.inj (hz.symm.trans hj')
        -- The node was discovered from position `i`, or from an earlier one.
        have hle : o ≤ i := Nat.le_of_not_lt fun hlt => hd.first k o _ ho hz i hlt x hi hy
        obtain ⟨path', hpath'⟩ := hd.exists_traced i hilt
        have := hpath'.mono hd hle htraced
        have := hshort path' hpath'
        rw [List.length_append, List.length_singleton]
        omega

/-- **No path to a node is shorter than the way back from it.** -/
theorem Traced.length_le (hd : Discovery next roots queue origin r head)
    (hhead : queue.length ≤ head) {other : List α} (h : Traced queue origin r j path)
    (hx : queue[j]? = some x) (hother : IsPath next roots other x) :
    path.length ≤ other.length := by
  obtain ⟨i, hi, hshort⟩ := hd.exists_le_of_isPath hhead rfl hother
  have hij : i = j := by
    obtain ⟨hilt, hxi⟩ := List.getElem?_eq_some_iff.mp hi
    obtain ⟨hjlt, hxj⟩ := List.getElem?_eq_some_iff.mp hx
    exact (List.Nodup.getElem_inj_iff hd.nodup).mp (hxi.trans hxj.symm)
  exact hshort path (hij ▸ h)

/-- **A search that has read its queue has met every node that is reached.** -/
theorem Discovery.mem_queue_iff (hd : Discovery next roots queue origin r head)
    (hhead : queue.length ≤ head) : x ∈ queue ↔ Reached next roots x := by
  refine ⟨fun hx => ?_, fun hx => ?_⟩
  · obtain ⟨j, hj, rfl⟩ := List.mem_iff_getElem.mp hx
    obtain ⟨path, hpath⟩ := hd.exists_traced j hj
    exact (hpath.isPath hd (List.getElem?_eq_getElem hj)).reached
  · obtain ⟨path, hpath⟩ := exists_isPath_of_reached hx
    obtain ⟨j, hj, -⟩ := hd.exists_le_of_isPath hhead rfl hpath
    exact List.mem_of_getElem? hj

end

end Qld.Lib
