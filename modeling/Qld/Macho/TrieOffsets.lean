import Mathlib.Algebra.Order.BigOperators.Group.Finset
import Qld.Macho.TrieShape

/-!
# The offsets of the export trie

* `withOffsets` — nodes with given offsets; `nextOffsets` — the offsets that a pass sets;
* `offsetPass_withOffsets` — a pass takes the sizes from the offsets of the pass before,
  since children lie after their node;
* `nextOffsets_mono` — larger offsets give larger offsets;
* `offsetLoop_ends` — the loop ends, at offsets that a pass keeps;
* `position_of_stable` — such offsets are the positions of the nodes in the output.
-/

namespace Qld.Macho

open Qld.Lib

/-! ### Sizes -/

theorem saturatingAdd_min (a b : ℕ) : saturatingAdd (min a U64_MAX) b = min (a + b) U64_MAX := by
  rw [saturatingAdd]
  omega

theorem bytesWith_congr {node : Node} {f g : ℕ → ℕ}
    (h : ∀ edge ∈ node.edges, f edge.2 = g edge.2) : bytesWith node f = bytesWith node g := by
  have hedges : edgeBytes f node.edges = edgeBytes g node.edges := by
    refine List.flatMap_congr fun edge hedge => ?_
    rw [h edge hedge]
  rw [bytesWith, bytesWith, hedges]

theorem foldl_edges (f : ℕ → ℕ) (edges : List (List UInt8 × ℕ)) (n : ℕ) :
    edges.foldl (fun size edge =>
      saturatingAdd (saturatingAdd (saturatingAdd size edge.1.length) 1) (ulebSize (f edge.2)))
      (min n U64_MAX) = min (n + (edgeBytes f edges).length) U64_MAX := by
  induction edges generalizing n with
  | nil => rfl
  | cons edge edges ih =>
    rw [List.foldl_cons, saturatingAdd_min, saturatingAdd_min, saturatingAdd_min, ih]
    congr 1
    rw [edgeBytes, edgeBytes, List.flatMap_cons, List.length_append, List.length_append,
      List.length_cons, length_pushUleb]
    omega

/-- **The size of a node is that of its bytes**, up to saturation. -/
theorem sizeWith_eq (node : Node) (f : ℕ → ℕ) :
    sizeWith node f = min (bytesWith node f).length U64_MAX := by
  have hstart : ∀ n, saturatingAdd n 1 = min (n + 1) U64_MAX := fun n => rfl
  cases hterminal : node.terminal with
  | none =>
    rw [sizeWith, hterminal, hstart, foldl_edges, bytesWith, hterminal]
    simp only [terminalField, List.length_append, List.length_cons, List.length_nil]
    congr 1
    omega
  | some info =>
    rw [sizeWith, hterminal]
    show List.foldl _ (saturatingAdd (min (ulebSize info.length + info.length) U64_MAX) 1) _ = _
    rw [saturatingAdd_min, foldl_edges, bytesWith, hterminal]
    simp only [terminalField, List.length_append, List.length_cons, length_pushUleb]
    congr 1
    omega

/-- **Larger offsets make a node larger.** -/
theorem length_bytesWith_mono {node : Node} {f g : ℕ → ℕ}
    (h : ∀ edge ∈ node.edges, f edge.2 ≤ g edge.2) :
    (bytesWith node f).length ≤ (bytesWith node g).length := by
  have hedges : (edgeBytes f node.edges).length ≤ (edgeBytes g node.edges).length := by
    rw [edgeBytes, edgeBytes, List.length_flatMap, List.length_flatMap]
    refine List.sum_le_sum fun edge hedge => ?_
    rw [List.length_append, List.length_append, List.length_cons, List.length_cons,
      length_pushUleb, length_pushUleb]
    have := ulebSize_mono (h edge hedge)
    omega
  rw [bytesWith, bytesWith, List.length_append, List.length_append, List.length_cons,
    List.length_cons]
  omega

/-! ### A pass -/

/-- Nodes with given offsets. -/
def withOffsets (nodes : List Node) (f : ℕ → ℕ) : List Node :=
  nodes.mapIdx fun i n => { n with offset := f i }

section Pass

variable {nodes : List Node} {f g : ℕ → ℕ}

theorem getElem?_withOffsets (i : ℕ) :
    (withOffsets nodes f)[i]? = nodes[i]?.map fun n => { n with offset := f i } :=
  List.getElem?_mapIdx

theorem length_withOffsets : (withOffsets nodes f).length = nodes.length := List.length_mapIdx

theorem offsetOf_withOffsets (i : ℕ) :
    offsetOf (withOffsets nodes f) i = if i < nodes.length then f i else 0 := by
  rw [offsetOf, getElem?_withOffsets]
  split
  · next hi => rw [List.getElem?_eq_getElem hi]; rfl
  · next hi => rw [List.getElem?_eq_none (not_lt.mp hi)]; rfl

theorem withOffsets_congr (h : ∀ i < nodes.length, f i = g i) :
    withOffsets nodes f = withOffsets nodes g := by
  refine List.ext_getElem? fun i => ?_
  rw [getElem?_withOffsets, getElem?_withOffsets]
  by_cases hi : i < nodes.length
  · rw [h i hi]
  · rw [List.getElem?_eq_none (not_lt.mp hi)]
    rfl

/-- The bytes of node `k`, with the offsets of its children. -/
def bytesAt (nodes : List Node) (f : ℕ → ℕ) (k : ℕ) : List UInt8 :=
  (nodes[k]?.map fun n => bytesWith n f).getD []

/-- The offsets that a pass sets, from those of the pass before. -/
def nextOffsets (nodes : List Node) (f : ℕ → ℕ) : ℕ → ℕ
  | 0 => 0
  | k + 1 => min (nextOffsets nodes f k + (bytesAt nodes f k).length) U64_MAX

/-- Offsets in the middle of a pass. -/
def midOffsets (nodes : List Node) (f : ℕ → ℕ) (k i : ℕ) : ℕ :=
  if i < k then nextOffsets nodes f i else f i

/-- **One step of a pass.**  The children of the node still have their old offsets. -/
theorem offsetStep_mid (hchildren : ChildrenWithin nodes 0 nodes.length) {k : ℕ}
    (hk : k < nodes.length) (changed : Bool) :
    offsetStep (withOffsets nodes (midOffsets nodes f k), nextOffsets nodes f k, changed) k =
      (withOffsets nodes (midOffsets nodes f (k + 1)), nextOffsets nodes f (k + 1),
        changed || decide (f k ≠ nextOffsets nodes f k)) := by
  obtain ⟨node, hnode, -, hedges⟩ := hchildren k (Nat.zero_le k) hk
  have hsize : nodeSize (withOffsets nodes (midOffsets nodes f k)) k =
      min (bytesAt nodes f k).length U64_MAX := by
    rw [nodeSize, getElem?_withOffsets, hnode, bytesAt, hnode]
    simp only [Option.map_some, Option.getD_some]
    rw [sizeWith_eq]
    congr 2
    refine (bytesWith_congr fun edge hedge => ?_).trans rfl
    obtain ⟨-, hlt, hbound⟩ := hedges edge hedge
    rw [offsetOf_withOffsets, if_pos hbound, midOffsets, if_neg (by omega)]
  have hnext : saturatingAdd (nextOffsets nodes f k) (min (bytesAt nodes f k).length U64_MAX) =
      nextOffsets nodes f (k + 1) := by
    rw [saturatingAdd, nextOffsets]
    omega
  have hold : offsetOf (withOffsets nodes (midOffsets nodes f k)) k = f k := by
    rw [offsetOf_withOffsets, if_pos hk, midOffsets, if_neg (lt_irrefl k)]
  have hset : ((withOffsets nodes (midOffsets nodes f k)).modify k fun n =>
      { n with offset := nextOffsets nodes f k }) =
      withOffsets nodes (midOffsets nodes f (k + 1)) := by
    refine List.ext_getElem? fun i => ?_
    rw [List.getElem?_modify, getElem?_withOffsets, getElem?_withOffsets]
    cases nodes[i]? with
    | none => rfl
    | some n =>
      by_cases hi : k = i
      · subst hi
        simp [midOffsets]
      · have : (i < k) = (i < k + 1) := by
          rw [eq_iff_iff]
          omega
        simp [midOffsets, hi, this]
  rw [offsetStep]
  simp only [hsize, hnext, hold]
  by_cases hsame : f k = nextOffsets nodes f k
  · rw [if_neg (not_not.mpr hsame), decide_eq_false (not_not.mpr hsame), Bool.or_false]
    congr 1
    refine withOffsets_congr fun i _ => ?_
    rw [midOffsets, midOffsets]
    by_cases hi : i = k
    · subst hi
      simp [hsame]
    · have : (i < k) = (i < k + 1) := by
        rw [eq_iff_iff]
        omega
      simp only [this]
  · rw [if_pos hsame, decide_eq_true hsame, Bool.or_true, hset]

/-- **A pass.** -/
theorem offsetPass_withOffsets (hchildren : ChildrenWithin nodes 0 nodes.length) :
    offsetPass (withOffsets nodes f) =
      (withOffsets nodes (nextOffsets nodes f), nextOffsets nodes f nodes.length,
        decide (∃ i < nodes.length, f i ≠ nextOffsets nodes f i)) := by
  have hfold : ∀ k ≤ nodes.length,
      (List.range k).foldl offsetStep (withOffsets nodes f, 0, false) =
        (withOffsets nodes (midOffsets nodes f k), nextOffsets nodes f k,
          decide (∃ i < k, f i ≠ nextOffsets nodes f i)) := by
    intro k
    induction k with
    | zero =>
      intro _
      have hnone : ¬ ∃ i < 0, f i ≠ nextOffsets nodes f i := by simp
      rw [decide_eq_false hnone]
      rfl
    | succ k ih =>
      intro hk
      rw [List.range_succ, List.foldl_append, ih (by omega), List.foldl_cons, List.foldl_nil,
        offsetStep_mid hchildren (by omega)]
      congr 2
      rw [← Bool.decide_or, decide_eq_decide]
      constructor
      · intro h
        rcases h with ⟨i, hi, hne⟩ | hne
        · exact ⟨i, by omega, hne⟩
        · exact ⟨k, by omega, hne⟩
      · intro ⟨i, hi, hne⟩
        by_cases hik : i = k
        · exact .inr (hik ▸ hne)
        · exact .inl ⟨i, by omega, hne⟩
  rw [offsetPass, length_withOffsets, hfold nodes.length le_rfl]
  congr 1
  refine withOffsets_congr fun i hi => ?_
  rw [midOffsets, if_pos hi]

end Pass

/-! ### The loop -/

section Loop

variable {nodes : List Node} {f g : ℕ → ℕ}

/-- **Larger offsets give larger offsets.** -/
theorem nextOffsets_mono (hchildren : ChildrenWithin nodes 0 nodes.length)
    (h : ∀ i < nodes.length, f i ≤ g i) (k : ℕ) :
    nextOffsets nodes f k ≤ nextOffsets nodes g k := by
  induction k with
  | zero => exact le_rfl
  | succ k ih =>
    have hbytes : (bytesAt nodes f k).length ≤ (bytesAt nodes g k).length := by
      by_cases hk : k < nodes.length
      · obtain ⟨node, hnode, -, hedges⟩ := hchildren k (Nat.zero_le k) hk
        rw [bytesAt, bytesAt, hnode]
        exact length_bytesWith_mono fun edge hedge => h _ (hedges edge hedge).2.2
      · rw [bytesAt, bytesAt, List.getElem?_eq_none (not_lt.mp hk)]
        rfl
    rw [nextOffsets, nextOffsets]
    omega

theorem nextOffsets_le (k : ℕ) : nextOffsets nodes f k ≤ U64_MAX := by
  cases k with
  | zero => exact Nat.zero_le _
  | succ k => exact Nat.min_le_right _ _

/-- **The loop ends**, at offsets that a pass keeps: offsets only grow, and are bounded. -/
theorem offsetLoop_ends (hchildren : ChildrenWithin nodes 0 nodes.length) (fuel : ℕ) :
    ∀ f : ℕ → ℕ, (∀ i < nodes.length, f i ≤ nextOffsets nodes f i) →
      ∑ i ∈ Finset.range nodes.length, (U64_MAX - f i) < fuel →
      ∃ g, offsetLoop fuel (withOffsets nodes f) = some (withOffsets nodes g) ∧
        ∀ i < nodes.length, g i = nextOffsets nodes g i := by
  induction fuel with
  | zero => intro f _ hlt; exact absurd hlt (Nat.not_lt_zero _)
  | succ fuel ih =>
    intro f hgrow hlt
    rw [offsetLoop, offsetPass_withOffsets hchildren]
    simp only [decide_eq_true_eq]
    by_cases hchanged : ∃ i < nodes.length, f i ≠ nextOffsets nodes f i
    · rw [if_pos hchanged]
      refine ih (nextOffsets nodes f) (fun i _ => nextOffsets_mono hchildren hgrow i) ?_
      refine Nat.lt_of_lt_of_le (Finset.sum_lt_sum ?_ ?_) (Nat.le_of_lt_succ hlt)
      · intro i hi
        exact Nat.sub_le_sub_left (hgrow i (Finset.mem_range.mp hi)) _
      · obtain ⟨i, hi, hne⟩ := hchanged
        refine ⟨i, Finset.mem_range.mpr hi, ?_⟩
        have := hgrow i hi
        have := @nextOffsets_le nodes f i
        omega
    · rw [if_neg hchanged]
      have hsame : ∀ i < nodes.length, f i = nextOffsets nodes f i := by
        intro i hi
        by_contra hne
        exact hchanged ⟨i, hi, hne⟩
      exact ⟨f, by rw [withOffsets_congr hsame], hsame⟩

/-- The bytes of the nodes before `k`. -/
def bytesBefore (nodes : List Node) (f : ℕ → ℕ) (k : ℕ) : List UInt8 :=
  (List.range k).flatMap (bytesAt nodes f)

theorem bytesBefore_succ (k : ℕ) :
    bytesBefore nodes f (k + 1) = bytesBefore nodes f k ++ bytesAt nodes f k := by
  rw [bytesBefore, List.range_succ, List.flatMap_append, List.flatMap_singleton]
  rfl

theorem isPrefix_bytesBefore {j k : ℕ} (h : j ≤ k) :
    bytesBefore nodes f j <+: bytesBefore nodes f k := by
  induction k with
  | zero => rw [Nat.le_zero.mp h]
  | succ k ih =>
    by_cases hjk : j = k + 1
    · rw [hjk]
    · rw [bytesBefore_succ]
      exact (ih (by omega)).trans (List.prefix_append _ _)

theorem nextOffsets_eq (k : ℕ) :
    nextOffsets nodes f k = min (bytesBefore nodes f k).length U64_MAX := by
  induction k with
  | zero => rfl
  | succ k ih =>
    rw [nextOffsets, ih, bytesBefore_succ, List.length_append]
    omega

/-- **Offsets that a pass keeps are positions**, in an output that fits. -/
theorem position_of_stable (hstable : ∀ i < nodes.length, g i = nextOffsets nodes g i)
    (hfits : (bytesBefore nodes g nodes.length).length < 2 ^ 63) {k : ℕ} (hk : k < nodes.length) :
    g k = (bytesBefore nodes g k).length := by
  have hle := (@isPrefix_bytesBefore nodes g k nodes.length hk.le).length_le
  rw [hstable k hk, nextOffsets_eq, U64_MAX]
  omega

theorem flatMap_writeNode (hchildren : ChildrenWithin nodes 0 nodes.length) :
    (List.range (withOffsets nodes g).length).flatMap (writeNode (withOffsets nodes g)) =
      bytesBefore nodes g nodes.length := by
  rw [length_withOffsets, bytesBefore]
  refine List.flatMap_congr fun k hk => ?_
  obtain ⟨node, hnode, -, hedges⟩ := hchildren k (Nat.zero_le k) (List.mem_range.mp hk)
  rw [writeNode, getElem?_withOffsets, hnode, bytesAt, hnode]
  refine (bytesWith_congr fun edge hedge => ?_).trans rfl
  rw [offsetOf_withOffsets, if_pos (hedges edge hedge).2.2]

end Loop

end Qld.Macho
