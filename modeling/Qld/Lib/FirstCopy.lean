import Mathlib.Data.List.Basic
import Mathlib.Data.List.Induction

/-!
# First copies

A list of positions with keys, and a pass over it that remembers where each key was first seen.

* `firstOf` — where a key is first seen; `copyStep` — one position of the pass;
* `copies_spec` — the pass lists the positions that are not the first of their key, each
  with the first one.
-/

namespace Qld.Lib

variable {ι κ : Type*} [DecidableEq κ]

/-- The first position with a key. -/
def firstOf (l : List (ι × κ)) (k : κ) : Option ι :=
  (l.find? fun x => x.2 = k).map Prod.fst

/-- One position: a new key is remembered, a known one is a copy of the first. -/
def copyStep [DecidableEq ι] (s : List (κ × ι) × List (ι × ι)) (x : ι × κ) : List (κ × ι) × List (ι × ι) :=
  match s.1.lookup x.2 with
  | some first => if first ≠ x.1 then (s.1, s.2 ++ [(x.1, first)]) else s
  | none => ((x.2, x.1) :: s.1, s.2)

theorem firstOf_append (l r : List (ι × κ)) (k : κ) :
    firstOf (l ++ r) k = (firstOf l k).or (firstOf r k) := by
  rw [firstOf, List.find?_append]
  cases h : l.find? fun x => x.2 = k with
  | none => simp [firstOf, h]
  | some x => simp [firstOf, h]

theorem firstOf_mem {l : List (ι × κ)} {k : κ} {i : ι} (h : firstOf l k = some i) : (i, k) ∈ l := by
  obtain ⟨x, hx, rfl⟩ := Option.map_eq_some_iff.mp h
  have hk : x.2 = k := by simpa using List.find?_some hx
  rw [← hk]
  exact List.mem_of_find?_eq_some hx

theorem firstOf_isSome {l : List (ι × κ)} {k : κ} {i : ι} (h : (i, k) ∈ l) :
    ∃ j, firstOf l k = some j := by
  have hsome : (l.find? fun x => x.2 = k).isSome :=
    List.find?_isSome.mpr ⟨(i, k), h, decide_eq_true rfl⟩
  obtain ⟨x, hx⟩ := Option.isSome_iff_exists.mp hsome
  exact ⟨x.1, by rw [firstOf, hx]; rfl⟩

/-- What the pass knows after a part of the list. -/
structure CopyInv (l : List (ι × κ)) (s : List (κ × ι) × List (ι × ι)) : Prop where
  seen : ∀ k, s.1.lookup k = firstOf l k
  copies : ∀ i j, (i, j) ∈ s.2 ↔ ∃ k, (i, k) ∈ l ∧ firstOf l k = some j ∧ j ≠ i

theorem copyStep_inv [DecidableEq ι] {l : List (ι × κ)} {s : List (κ × ι) × List (ι × ι)} (h : CopyInv l s)
    (x : ι × κ) : CopyInv (l ++ [x]) (copyStep s x) := by
  obtain ⟨i, k⟩ := x
  have hlast : firstOf [(i, k)] k = some i := by simp [firstOf]
  -- keys that were seen keep their first position
  have hold : ∀ {k' j}, firstOf l k' = some j → firstOf (l ++ [(i, k)]) k' = some j := by
    intro k' j hj
    rw [firstOf_append, hj, Option.some_or]
  have hother : ∀ {k'}, k' ≠ k → firstOf (l ++ [(i, k)]) k' = firstOf l k' := by
    intro k' hk
    have hnone : firstOf [(i, k)] k' = none := by simp [firstOf, Ne.symm hk]
    rw [firstOf_append, hnone, Option.or_none]
  have hmem : ∀ i' k', (i', k') ∈ l ++ [(i, k)] ↔ (i', k') ∈ l ∨ (i' = i ∧ k' = k) := by
    intro i' k'
    rw [List.mem_append, List.mem_singleton, Prod.mk.injEq]
  have hkeep : ∀ i' j, (∃ k', (i', k') ∈ l ∧ firstOf (l ++ [(i, k)]) k' = some j ∧ j ≠ i') ↔
      ∃ k', (i', k') ∈ l ∧ firstOf l k' = some j ∧ j ≠ i' := by
    intro i' j
    refine exists_congr fun k' => and_congr_right fun hk' => ?_
    obtain ⟨j', hj'⟩ := firstOf_isSome hk'
    rw [hold hj', hj']
  have hsplit : ∀ i' j, (∃ k', (i', k') ∈ l ++ [(i, k)] ∧
      firstOf (l ++ [(i, k)]) k' = some j ∧ j ≠ i') ↔
      (∃ k', (i', k') ∈ l ∧ firstOf l k' = some j ∧ j ≠ i') ∨
        (i' = i ∧ firstOf (l ++ [(i, k)]) k = some j ∧ j ≠ i) := by
    intro i' j
    rw [← hkeep]
    refine ⟨?_, ?_⟩
    · rintro ⟨k', hk', hrest⟩
      rcases (hmem i' k').mp hk' with hl | ⟨rfl, rfl⟩
      · exact .inl ⟨k', hl, hrest⟩
      · exact .inr ⟨rfl, hrest⟩
    · rintro (⟨k', hk', hrest⟩ | ⟨rfl, hrest⟩)
      · exact ⟨k', (hmem i' k').mpr (.inl hk'), hrest⟩
      · exact ⟨k, (hmem i' k).mpr (.inr ⟨rfl, rfl⟩), hrest⟩
  rw [copyStep]
  cases hseen : s.1.lookup k with
  | some first =>
    have hfirst : firstOf (l ++ [(i, k)]) k = some first := hold ((h.seen k).symm.trans hseen)
    have hlookup : ∀ k', s.1.lookup k' = firstOf (l ++ [(i, k)]) k' := by
      intro k'
      by_cases hk : k' = k
      · rw [hk, hseen, hfirst]
      · rw [hother hk, h.seen]
    have hcopy : ∀ j, firstOf (l ++ [(i, k)]) k = some j ↔ j = first := by
      intro j
      rw [hfirst, Option.some_inj, eq_comm]
    dsimp only
    split
    · next hne =>
      refine ⟨hlookup, fun i' j => ?_⟩
      rw [hsplit, hcopy, List.mem_append, h.copies, List.mem_singleton, Prod.mk.injEq]
      refine or_congr_right ⟨?_, ?_⟩
      · rintro ⟨rfl, rfl⟩
        exact ⟨rfl, rfl, hne⟩
      · rintro ⟨rfl, rfl, -⟩
        exact ⟨rfl, rfl⟩
    · next heq =>
      rw [not_not] at heq
      refine ⟨hlookup, fun i' j => ?_⟩
      rw [hsplit, hcopy, h.copies]
      refine ⟨.inl, ?_⟩
      rintro (hl | ⟨-, rfl, hne⟩)
      · exact hl
      · exact absurd heq hne
  | none =>
    have hnone : firstOf l k = none := (h.seen k).symm.trans hseen
    have hfirst : firstOf (l ++ [(i, k)]) k = some i := by
      rw [firstOf_append, hnone, hlast, Option.none_or]
    refine ⟨fun k' => ?_, fun i' j => ?_⟩
    · show ((k, i) :: s.1).lookup k' = _
      by_cases hk : k' = k
      · rw [hk, hfirst, List.lookup_cons_self]
      · rw [hother hk, ← h.seen, List.lookup_cons, beq_false_of_ne hk]
    · show (i', j) ∈ s.2 ↔ _
      rw [hsplit, hfirst, h.copies]
      refine ⟨.inl, ?_⟩
      rintro (hl | ⟨-, hj, hne⟩)
      · exact hl
      · exact absurd (Option.some.inj hj).symm hne

/-- **The pass lists the later copies with the first ones.** -/
theorem copies_spec [DecidableEq ι] (l : List (ι × κ)) : CopyInv l (l.foldl copyStep ([], [])) := by
  induction l using List.reverseRecOn with
  | nil => exact ⟨fun k => rfl, fun i j => by simp⟩
  | append_singleton l x ih =>
    rw [List.foldl_append]
    exact copyStep_inv ih x

/-- Looking up in a list where a key has one value. -/
theorem lookup_eq_some_iff {α β : Type*} [BEq α] [LawfulBEq α] {l : List (α × β)}
    (hfun : ∀ a b c, (a, b) ∈ l → (a, c) ∈ l → b = c) (a : α) (b : β) :
    l.lookup a = some b ↔ (a, b) ∈ l := by
  induction l with
  | nil => simp
  | cons x l ih =>
    obtain ⟨a', b'⟩ := x
    have ih := ih fun a b c hb hc =>
      hfun a b c (List.mem_cons_of_mem _ hb) (List.mem_cons_of_mem _ hc)
    by_cases ha : a = a'
    · subst ha
      rw [List.lookup_cons_self, Option.some_inj]
      refine ⟨fun h => h ▸ List.mem_cons_self, fun h => ?_⟩
      exact hfun a b' b List.mem_cons_self h
    · rw [List.lookup_cons, beq_false_of_ne ha]
      show l.lookup a = some b ↔ _
      rw [ih, List.mem_cons, Prod.mk.injEq]
      refine ⟨.inr, ?_⟩
      rintro (⟨h, -⟩ | h)
      · exact absurd h ha
      · exact h

end Qld.Lib
