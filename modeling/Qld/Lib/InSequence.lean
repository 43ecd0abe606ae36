import Mathlib.Data.List.Basic
import Qld.Lib.NextMultiple

/-!
# Items one after the other, each at a multiple of an alignment

* `inSequence` — the offsets of items that are placed one after the other, and the end of the last;
* `inSequence_append`, `inSequence_shift` — a sequence may be cut, and a part that starts
  at a multiple only shifts;
* `inSequence_lt` — items that are not empty have increasing offsets.
-/

namespace Qld.Lib

variable {α : Type}

/-- Items one after the other from `position` on, each at the next multiple of `alignment`: the
items with their offsets, and the end of the last one. -/
def inSequence (alignment : ℕ) (len : α → ℕ) : List α → (position : ℕ) → List (α × ℕ) × ℕ
  | [], position => ([], position)
  | x :: rest, position =>
    let start := nextMultiple position alignment
    let tail := inSequence alignment len rest (start + len x)
    ((x, start) :: tail.1, tail.2)

section InSequence

variable {alignment : ℕ} {len : α → ℕ}

@[simp] theorem map_fst_inSequence (l : List α) (position : ℕ) :
    (inSequence alignment len l position).1.map Prod.fst = l := by
  induction l generalizing position with
  | nil => rfl
  | cons x l ih => rw [inSequence, List.map_cons, ih]

theorem inSequence_map {β : Type} (f : β → α) (l : List β) (position : ℕ) :
    inSequence alignment len (l.map f) position =
      ((inSequence alignment (len ∘ f) l position).1.map fun x => (f x.1, x.2),
        (inSequence alignment (len ∘ f) l position).2) := by
  induction l generalizing position with
  | nil => rfl
  | cons x l ih =>
    rw [List.map_cons, inSequence, inSequence, ih]
    rfl

/-- **A sequence may be cut.** -/
theorem inSequence_append (l m : List α) (position : ℕ) :
    inSequence alignment len (l ++ m) position =
      ((inSequence alignment len l position).1 ++
        (inSequence alignment len m (inSequence alignment len l position).2).1,
        (inSequence alignment len m (inSequence alignment len l position).2).2) := by
  induction l generalizing position with
  | nil => rfl
  | cons x l ih => rw [List.cons_append, inSequence, ih, inSequence, List.cons_append]

/-- **A sequence that starts at a multiple only shifts.** -/
theorem inSequence_shift {base : ℕ} (ha : 0 < alignment) (hbase : alignment ∣ base) (l : List α)
    (position : ℕ) :
    inSequence alignment len l (base + position) =
      ((inSequence alignment len l position).1.map fun x => (x.1, base + x.2),
        base + (inSequence alignment len l position).2) := by
  induction l generalizing position with
  | nil => rfl
  | cons x l ih =>
    rw [inSequence, inSequence, nextMultiple_add _ ha hbase, Nat.add_assoc, ih]
    rfl

theorem inSequence_nextMultiple (ha : 0 < alignment) {l : List α} (hl : l ≠ []) (position : ℕ) :
    inSequence alignment len l (nextMultiple position alignment) =
      inSequence alignment len l position := by
  cases l with
  | nil => exact absurd rfl hl
  | cons x l => rw [inSequence, inSequence, nextMultiple_of_dvd ha (dvd_nextMultiple position)]

theorem le_of_mem_inSequence (ha : 0 < alignment) (l : List α) (position : ℕ) :
    ∀ x ∈ (inSequence alignment len l position).1, position ≤ x.2 := by
  induction l generalizing position with
  | nil => exact fun x hx => absurd hx List.not_mem_nil
  | cons y l ih =>
    intro x hx
    have hstart := le_nextMultiple position ha
    rcases List.mem_cons.mp hx with rfl | hx
    · exact hstart
    · exact hstart.trans ((Nat.le_add_right _ _).trans (ih _ x hx))

/-- **Items that are not empty have increasing offsets.** -/
theorem inSequence_lt (ha : 0 < alignment) (l : List α) (position : ℕ) (hlen : ∀ x ∈ l, 0 < len x) :
    (inSequence alignment len l position).1.Pairwise fun x y => x.2 < y.2 := by
  induction l generalizing position with
  | nil => exact List.Pairwise.nil
  | cons x l ih =>
    refine List.pairwise_cons.mpr ⟨fun y hy => ?_, ih _ fun z hz => hlen z (List.mem_cons_of_mem _ hz)⟩
    have hpos := hlen x List.mem_cons_self
    have hle := le_of_mem_inSequence ha l _ y hy
    show nextMultiple position alignment < y.2
    omega

/-- Without an alignment, a sequence ends after the lengths of its items. -/
theorem end_inSequence_one (l : List α) (position : ℕ) :
    (inSequence 1 len l position).2 = position + (l.map len).sum := by
  induction l generalizing position with
  | nil => rfl
  | cons x l ih =>
    rw [inSequence, nextMultiple_one, ih, List.map_cons, List.sum_cons, Nat.add_assoc]

end InSequence

end Qld.Lib
