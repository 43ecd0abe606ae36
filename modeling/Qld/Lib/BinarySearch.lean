import Mathlib.Data.List.Basic

/-!
# Binary search

* `searchEq key target low high` — the loop that looks for a key;
* `searchEq_eq_some`, `searchEq_eq_none` — over strictly ascending keys it finds the key
  when it is there, and nothing else.
-/

namespace Qld.Lib

/-! ### Looking for a key -/

section Exact

variable {α : Type} [Ord α]

/-- The loop: the middle key is compared with the target.  `some none` when the key is not there. -/
def searchEq (key : ℕ → Option α) (target : α) (low high : ℕ) : Option (Option ℕ) :=
  if low < high then do
    let mid := (low + high) / 2
    match compare target (← key mid) with
    | .eq => return some mid
    | .lt => searchEq key target low mid
    | .gt => searchEq key target (mid + 1) high
  else return none
termination_by high - low

variable [Std.LawfulEqOrd α]

variable {key : ℕ → Option α} {target : α} {low high found : ℕ}

theorem key_of_searchEq (h : searchEq key target low high = some (some found)) :
    key found = some target := by
  induction hn : high - low using Nat.strongRecOn generalizing low high with
  | _ n ih =>
    rw [searchEq] at h
    split at h
    · obtain ⟨k, hk, h⟩ := Option.bind_eq_some_iff.mp h
      split at h
      · next heq =>
        obtain rfl := Option.some.inj (Option.some.inj h)
        rw [hk, Std.LawfulEqOrd.eq_of_compare heq]
      · exact ih _ (by omega) h rfl
      · exact ih _ (by omega) h rfl
    · exact nomatch Option.some.inj h

variable {keys : List α}

section

variable (hkey : ∀ i < keys.length, key i = keys[i]?)

include hkey

/-- **A key that is there is found.** -/
theorem searchEq_eq_some [Std.TransOrd α] (hkeys : keys.Pairwise fun a b => compare a b = .lt)
    (hfound : keys[found]? = some target) (hlow : low ≤ found) (hhigh : found < high)
    (hlen : high ≤ keys.length) :
    searchEq key target low high = some (some found) := by
  obtain ⟨hfoundlt, rfl⟩ := List.getElem?_eq_some_iff.mp hfound
  have hpair := List.pairwise_iff_getElem.mp hkeys
  -- The key stays between the bounds, which come closer with every step.
  induction h : high - low using Nat.strongRecOn generalizing low high with
  | _ n ih =>
    have hmid : (low + high) / 2 < keys.length := by omega
    rw [searchEq, if_pos (by omega)]
    simp only [hkey _ hmid, List.getElem?_eq_getElem hmid, Option.bind_eq_bind, Option.bind_some,
      Option.pure_def]
    rcases Nat.lt_trichotomy found ((low + high) / 2) with hlt | heq | hgt
    · rw [hpair _ _ hfoundlt hmid hlt]
      exact ih _ (by omega) hlow hlt (by omega) rfl
    · simp only [heq, Std.ReflCmp.compare_self]
    · rw [Std.OrientedCmp.gt_of_lt (hpair _ _ hmid hfoundlt hgt)]
      exact ih _ (by omega) hgt hhigh hlen rfl

/-- **A key that is not there is not found.** -/
theorem searchEq_eq_none (hnot : target ∉ keys) (hlen : high ≤ keys.length) :
    searchEq key target low high = some none := by
  induction h : high - low using Nat.strongRecOn generalizing low high with
  | _ n ih =>
    rw [searchEq]
    split
    · next hlt =>
      have hmid : (low + high) / 2 < keys.length := by omega
      simp only [hkey _ hmid, List.getElem?_eq_getElem hmid, Option.bind_eq_bind, Option.bind_some,
        Option.pure_def]
      split
      · next heq =>
        exact absurd (Std.LawfulEqOrd.eq_of_compare heq ▸ List.getElem_mem hmid) hnot
      · exact ih _ (by omega) (by omega) rfl
      · exact ih _ (by omega) hlen rfl
    · rfl

/-- A key that is there is found, also among equal keys. -/
theorem exists_searchEq [Std.TransOrd α] (hkeys : keys.Pairwise fun a b => compare a b ≠ .gt)
    (hfound : keys[found]? = some target) (hlow : low ≤ found) (hhigh : found < high)
    (hlen : high ≤ keys.length) :
    ∃ i, searchEq key target low high = some (some i) := by
  obtain ⟨hfoundlt, rfl⟩ := List.getElem?_eq_some_iff.mp hfound
  have hpair := List.pairwise_iff_getElem.mp hkeys
  induction h : high - low using Nat.strongRecOn generalizing low high with
  | _ n ih =>
    have hmid : (low + high) / 2 < keys.length := by omega
    rw [searchEq, if_pos (by omega)]
    simp only [hkey _ hmid, List.getElem?_eq_getElem hmid, Option.bind_eq_bind, Option.bind_some,
      Option.pure_def]
    split
    · exact ⟨_, rfl⟩
    · next hlt =>
      have hbefore : found < (low + high) / 2 := by
        by_contra hge
        rcases Nat.eq_or_lt_of_le (Nat.le_of_not_lt hge) with heq | hgt
        · simp only [heq, Std.ReflCmp.compare_self] at hlt
          exact nomatch hlt
        · exact hpair _ _ hmid hfoundlt hgt (Std.OrientedCmp.gt_of_lt hlt)
      exact ih _ (by omega) hlow hbefore (by omega) rfl
    · next hgt =>
      have hafter : (low + high) / 2 < found := by
        by_contra hge
        rcases Nat.eq_or_lt_of_le (Nat.le_of_not_lt hge) with heq | hlt
        · simp only [heq, Std.ReflCmp.compare_self] at hgt
          exact nomatch hgt
        · exact hpair _ _ hfoundlt hmid hlt hgt
      exact ih _ (by omega) hafter hhigh hlen rfl

end

/-- `slice::binary_search(..).is_ok()`. -/
def binarySearch (keys : List α) (target : α) : Bool :=
  ((searchEq (fun i => keys[i]?) target 0 keys.length).getD none).isSome

/-- **In a sorted list the search finds what is there.** -/
theorem binarySearch_iff [Std.TransOrd α] (hkeys : keys.Pairwise fun a b => compare a b ≠ .gt) :
    binarySearch keys target = true ↔ target ∈ keys := by
  rw [binarySearch]
  refine ⟨fun h => ?_, fun h => ?_⟩
  · by_contra hnot
    rw [searchEq_eq_none (fun _ _ => rfl) hnot (Nat.le_refl _)] at h
    exact nomatch h
  · obtain ⟨found, hfound, hget⟩ := List.getElem_of_mem h
    obtain ⟨i, hi⟩ := exists_searchEq (fun _ _ => rfl) hkeys (List.getElem?_eq_some_iff.mpr ⟨hfound, hget⟩)
      (Nat.zero_le _) hfound (Nat.le_refl _)
    rw [hi]
    rfl

end Exact

end Qld.Lib
