import Mathlib.Data.Set.Insert
import Mathlib.Tactic.Tauto

/-!
# Keeping the best candidate of a sequence of offers

A cell that starts empty is offered candidates one after the other and keeps the best one
under a precedence relation.  When the relation is a strict total order on the candidates
that are offered, the cell ends with their maximum, whatever the order of the offers:

* `StrictTotalOn r s` — `r` is irreflexive, transitive and total on the set `s`;
* `StrictTotalOn.ofKey` — a relation that compares a key into a linear order is one,
  wherever the key is injective;
* `IsBest r s m` — `m` is the maximum of `s`; it is unique (`IsBest.unique`);
* `offerAll_isBest` — the cell after a run of offers holds the maximum of what was offered.
-/

namespace Qld.Lib

variable {α : Type*} {r : α → α → Prop} {s t : Set α}

/-- `r` is a strict total order on the members of `s`. -/
structure StrictTotalOn (r : α → α → Prop) (s : Set α) : Prop where
  irrefl : ∀ a ∈ s, ¬ r a a
  trans : ∀ a ∈ s, ∀ b ∈ s, ∀ c ∈ s, r a b → r b c → r a c
  total : ∀ a ∈ s, ∀ b ∈ s, a ≠ b → r a b ∨ r b a

theorem StrictTotalOn.mono (h : StrictTotalOn r t) (hst : s ⊆ t) : StrictTotalOn r s where
  irrefl a ha := h.irrefl a (hst ha)
  trans a ha b hb c hc := h.trans a (hst ha) b (hst hb) c (hst hc)
  total a ha b hb := h.total a (hst ha) b (hst hb)

theorem StrictTotalOn.asymm (h : StrictTotalOn r s) {a b : α} (ha : a ∈ s) (hb : b ∈ s)
    (hab : r a b) : ¬ r b a :=
  fun hba => h.irrefl a ha (h.trans a ha b hb a ha hab hba)

/-- Comparing a key in a linear order is a strict total order wherever the key tells the
members apart. -/
theorem StrictTotalOn.ofKey {κ : Type*} [LinearOrder κ] (key : α → κ)
    (hr : ∀ a ∈ s, ∀ b ∈ s, r a b ↔ key b < key a)
    (hinj : ∀ a ∈ s, ∀ b ∈ s, key a = key b → a = b) : StrictTotalOn r s where
  irrefl a ha := by
    rw [hr a ha a ha]
    exact lt_irrefl _
  trans a ha b hb c hc hab hbc := by
    rw [hr a ha b hb] at hab
    rw [hr b hb c hc] at hbc
    rw [hr a ha c hc]
    exact lt_trans hbc hab
  total a ha b hb hne := by
    rw [hr a ha b hb, hr b hb a ha]
    exact lt_or_gt_of_ne fun hkey => hne (hinj b hb a ha hkey).symm

/-- `m` is the maximum of `s`: a member that precedes every other one. -/
def IsBest (r : α → α → Prop) (s : Set α) (m : α) : Prop :=
  m ∈ s ∧ ∀ a ∈ s, a ≠ m → r m a

theorem IsBest.unique (h : StrictTotalOn r s) {m n : α} (hm : IsBest r s m)
    (hn : IsBest r s n) : m = n := by
  by_contra hne
  exact h.asymm hm.1 hn.1 (hm.2 n hn.1 (Ne.symm hne)) (hn.2 m hm.1 hne)

/-! ### The cell -/

/-- One offer to a cell: the candidate replaces what it takes precedence over. -/
def offer (p : α → α → Bool) (cell : Option α) (candidate : α) : Option α :=
  match cell with
  | none => some candidate
  | some current => if p candidate current then some candidate else some current

/-- A run of offers. -/
def offerAll (p : α → α → Bool) (cell : Option α) (candidates : List α) : Option α :=
  candidates.foldl (offer p) cell

/-- What a cell holds after it was offered exactly the members of `s`: nothing if there are
none, and their maximum otherwise. -/
def HoldsBest (r : α → α → Prop) (s : Set α) : Option α → Prop
  | none => s = ∅
  | some m => IsBest r s m

theorem HoldsBest.unique (h : StrictTotalOn r s) {c d : Option α} (hc : HoldsBest r s c)
    (hd : HoldsBest r s d) : c = d := by
  cases c with
  | none =>
    cases d with
    | none => rfl
    | some n => exact absurd hd.1 (by rw [show s = ∅ from hc]; exact Set.notMem_empty n)
  | some m =>
    cases d with
    | none => exact absurd hc.1 (by rw [show s = ∅ from hd]; exact Set.notMem_empty m)
    | some n => rw [IsBest.unique h hc hd]

variable {p : α → α → Bool}

/-- One offer keeps a cell at the maximum of what it has been offered. -/
theorem offer_holdsBest {cell : Option α} {x : α}
    (h : StrictTotalOn (fun a b => p a b = true) (insert x s))
    (hcell : HoldsBest (fun a b => p a b = true) s cell) :
    HoldsBest (fun a b => p a b = true) (insert x s) (offer p cell x) := by
  cases cell with
  | none =>
    rw [show s = ∅ from hcell]
    refine ⟨Set.mem_insert x ∅, ?_⟩
    rintro a (rfl | ha) hne
    · exact absurd rfl hne
    · exact absurd ha (Set.notMem_empty a)
  | some m =>
    obtain ⟨hm, hmax⟩ := hcell
    have hms : m ∈ insert x s := Set.mem_insert_of_mem x hm
    have hxs : x ∈ insert x s := Set.mem_insert x s
    by_cases hp : p x m = true
    · simp only [offer, hp, if_true]
      refine ⟨hxs, ?_⟩
      rintro a (rfl | ha) hne
      · exact absurd rfl hne
      · by_cases ham : a = m
        · rw [ham]
          exact hp
        · exact h.trans x hxs m hms a (Set.mem_insert_of_mem x ha) hp (hmax a ha ham)
    · simp only [offer, hp]
      refine ⟨hms, ?_⟩
      rintro a (rfl | ha) hne
      · exact (h.total a hxs m hms hne).resolve_left hp
      · exact hmax a ha hne

/-- A run of offers leaves the maximum of everything offered so far. -/
theorem offerAll_holdsBest (l : List α) :
    ∀ {s : Set α} {cell : Option α},
      StrictTotalOn (fun a b => p a b = true) (s ∪ {a | a ∈ l}) →
      HoldsBest (fun a b => p a b = true) s cell →
      HoldsBest (fun a b => p a b = true) (s ∪ {a | a ∈ l}) (offerAll p cell l) := by
  induction l with
  | nil =>
    intro s cell _ hcell
    simpa [offerAll, Set.union_empty] using hcell
  | cons x l ih =>
    intro s cell h hcell
    have hset : insert x s ∪ {a | a ∈ l} = s ∪ {a | a ∈ x :: l} := by
      ext a
      simp only [Set.mem_union, Set.mem_insert_iff, Set.mem_ofPred_eq, List.mem_cons]
      tauto
    have hsub : insert x s ⊆ s ∪ {a | a ∈ x :: l} := by
      rw [← hset]
      exact Set.subset_union_left
    have hstep := offer_holdsBest (h.mono hsub) hcell
    rw [← hset] at h ⊢
    exact ih h hstep

/-- From an empty cell, a run of offers leaves the maximum of the list. -/
theorem offerAll_isBest (l : List α)
    (h : StrictTotalOn (fun a b => p a b = true) {a | a ∈ l}) :
    HoldsBest (fun a b => p a b = true) {a | a ∈ l} (offerAll p none l) := by
  have hrun : HoldsBest (fun a b => p a b = true) (∅ ∪ {a | a ∈ l}) (offerAll p none l) :=
    offerAll_holdsBest l (by rwa [Set.empty_union]) rfl
  rwa [Set.empty_union] at hrun

end Qld.Lib
