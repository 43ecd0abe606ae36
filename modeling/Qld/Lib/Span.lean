import Qld.Lib.Segments

/-!
# Stretches of a sequence

* `span z a b` — the elements of a sequence from position `a` up to `b`;
* `span_append`, `span_slice` — stretches are put together and cut;
* `overwrite_span`, `foldl_overwrite_span` — stretches of one sequence that are written
  over stretches of another, in any order.
-/

namespace Qld.Lib

variable {β : Type}

/-- The elements of a sequence from position `a` up to `b`. -/
def span (z : ℕ → β) (a b : ℕ) : List β := (List.range' a (b - a)).map z

@[simp] theorem length_span (z : ℕ → β) (a b : ℕ) : (span z a b).length = b - a := by
  rw [span, List.length_map, List.length_range']

@[simp] theorem span_self (z : ℕ → β) (a : ℕ) : span z a a = [] := by
  rw [span, Nat.sub_self]
  rfl

variable {a b : ℕ}

theorem getElem?_span (z : ℕ → β) {i : ℕ} (h : a + i < b) :
    (span z a b)[i]? = some (z (a + i)) := by
  rw [span, List.getElem?_map, List.getElem?_range' (by omega), Nat.one_mul]
  rfl

theorem getElem?_span_eq_none (z : ℕ → β) {i : ℕ} (h : b ≤ a + i) : (span z a b)[i]? = none := by
  rw [List.getElem?_eq_none]
  rw [length_span]
  omega

variable {z : ℕ → β}

theorem eq_span {l : List β} (hlen : l.length = b - a) (h : ∀ i < b - a, l[i]? = some (z (a + i))) :
    l = span z a b := by
  apply List.ext_getElem?
  intro i
  by_cases hi : i < b - a
  · rw [h i hi, getElem?_span z (by omega)]
  · rw [getElem?_span_eq_none z (by omega), List.getElem?_eq_none (by omega)]

theorem span_congr {z' : ℕ → β} (h : ∀ p, a ≤ p → p < b → z p = z' p) :
    span z a b = span z' a b := by
  refine List.map_congr_left fun p hp => ?_
  obtain ⟨hle, hlt⟩ := List.mem_range'_1.mp hp
  exact h p hle (by omega)

/-- **Stretches are put together.** -/
theorem span_append (z : ℕ → β) {c : ℕ} (hab : a ≤ b) (hbc : b ≤ c) :
    span z a b ++ span z b c = span z a c := by
  have hlen : c - a = (b - a) + (c - b) := by omega
  rw [span, span, span, hlen, ← List.range'_append_1, List.map_append, Nat.add_sub_cancel' hab]

/-- **Stretches are cut.** -/
theorem span_slice (z : ℕ → β) {lo hi : ℕ} (hlo : a ≤ lo) (hhi : hi ≤ b) :
    ((span z a b).drop (lo - a)).take (hi - lo) = span z lo hi := by
  refine eq_span ?_ fun i hi => ?_
  · rw [List.length_take, List.length_drop, length_span]
    omega
  · rw [List.getElem?_take, if_pos hi, List.getElem?_drop, getElem?_span z (by omega)]
    congr 2
    omega

theorem span_eq_replicate [Zero β] (h : ∀ p, a ≤ p → p < b → z p = 0) :
    span z a b = List.replicate (b - a) 0 := by
  refine List.eq_replicate_iff.mpr ⟨length_span z a b, fun x hx => ?_⟩
  obtain ⟨p, hp, rfl⟩ := List.mem_map.mp hx
  obtain ⟨hle, hlt⟩ := List.mem_range'_1.mp hp
  exact h p hle (by omega)

theorem replicate_eq_span [Zero β] (a b : ℕ) :
    List.replicate (b - a) (0 : β) = span (fun _ => 0) a b :=
  (span_eq_replicate fun _ _ _ => rfl).symm

/-! ### Writing -/

/-- **A stretch of one sequence over one of another.** -/
theorem overwrite_span (y z : ℕ → β) {s e : ℕ} (hs : a ≤ s) (hse : s ≤ e) (he : e ≤ b) :
    overwrite (span y a b) (s - a) (span z s e) =
      span (fun p => if s ≤ p ∧ p < e then z p else y p) a b := by
  have hfits : s - a + (span z s e).length ≤ (span y a b).length := by
    rw [length_span, length_span]
    omega
  refine eq_span (by rw [length_overwrite hfits, length_span]) fun i hi => ?_
  rw [getElem?_overwrite hfits, length_span]
  by_cases hin : s ≤ a + i ∧ a + i < e
  · rw [if_pos (by omega), if_pos hin, getElem?_span z (by omega)]
    congr 2
    omega
  · rw [if_neg (by omega), if_neg hin, getElem?_span y (by omega)]

/-- **Stretches of one sequence, in any order.** -/
theorem foldl_overwrite_span (l : List (ℕ × ℕ)) :
    ∀ y : ℕ → β, (∀ x ∈ l, a ≤ x.1 ∧ x.1 ≤ x.2 ∧ x.2 ≤ b) →
      (∀ p, a ≤ p → p < b → (∀ x ∈ l, ¬(x.1 ≤ p ∧ p < x.2)) → y p = z p) →
      l.foldl (fun buf x => overwrite buf (x.1 - a) (span z x.1 x.2)) (span y a b) =
        span z a b := by
  induction l with
  | nil => exact fun y _ hoff => span_congr fun p hle hlt => hoff p hle hlt fun x hx => nomatch hx
  | cons x l ih =>
    intro y hin hoff
    obtain ⟨hs, hse, he⟩ := hin x List.mem_cons_self
    rw [List.foldl_cons, overwrite_span y z hs hse he]
    refine ih _ (fun x hx => hin x (List.mem_cons_of_mem _ hx)) fun p hle hlt hnone => ?_
    by_cases hp : x.1 ≤ p ∧ p < x.2
    · rw [if_pos hp]
    · rw [if_neg hp]
      exact hoff p hle hlt (List.forall_mem_cons.mpr ⟨hp, hnone⟩)

end Qld.Lib
