import Mathlib.Tactic.Common

/-!
# Buckets

Values filed under keys, each bucket in the order of filing.

* `push`, `bucket` — filing a value, and the values under a key;
* `bucket_push`, `bucket_foldl` — what one filing changes, and what a whole run leaves;
* `findSome?_filter_of_none`, `findSome?_flatMap`, `findSome?_range` — searches that
  skip what gives nothing, go through pieces, or go by position.
-/

namespace Qld.Lib

variable {α β κ : Type*}

/-! ### Filing -/

/-- The values filed under each key. -/
abbrev Buckets (κ α : Type*) := List (κ × List α)

namespace Buckets

variable [DecidableEq κ]

def get : Buckets κ α → κ → Option (List α)
  | [], _ => none
  | (k, xs) :: buckets, key => if k = key then some xs else get buckets key

/-- Files a value under a key, in a bucket of its own when there is none. -/
def push : Buckets κ α → κ → α → Buckets κ α
  | [], key, x => [(key, [x])]
  | (k, xs) :: buckets, key, x =>
    if k = key then (k, xs ++ [x]) :: buckets else (k, xs) :: push buckets key x

/-- The values filed under a key. -/
def bucket (buckets : Buckets κ α) (key : κ) : List α := (get buckets key).getD []

theorem bucket_nil (key : κ) : bucket ([] : Buckets κ α) key = [] := rfl

theorem bucket_push (buckets : Buckets κ α) (key key' : κ) (x : α) :
    bucket (push buckets key x) key' =
      bucket buckets key' ++ if key = key' then [x] else [] := by
  induction buckets with
  | nil =>
    simp only [push, bucket, get]
    split <;> rfl
  | cons entry buckets ih =>
    simp only [bucket] at ih
    simp only [push, bucket]
    by_cases hsame : entry.1 = key
    · by_cases hkey : key = key'
      · simp [get, hsame, hkey]
      · simp [get, hsame, hkey]
    · rw [if_neg hsame]
      by_cases hentry : entry.1 = key'
      · have hkey : key ≠ key' := fun h => hsame (hentry.trans h.symm)
        simp [get, hentry, hkey]
      · simp only [get, hentry, if_false]
        exact ih

/-- **A run of filings.**  Every bucket holds its values in the order of the run. -/
theorem bucket_foldl (items : List β) (keyOf : β → Option κ) (value : β → α)
    (buckets : Buckets κ α) (key : κ) :
    bucket (items.foldl (fun buckets item =>
        (keyOf item).elim buckets fun k => push buckets k (value item)) buckets) key =
      bucket buckets key ++
        (items.filter fun item => keyOf item = some key).map value := by
  induction items generalizing buckets with
  | nil => simp
  | cons item items ih =>
    rw [List.foldl_cons, ih, List.filter_cons]
    cases hkey : keyOf item with
    | none => simp
    | some k =>
      rw [Option.elim_some, bucket_push]
      by_cases h : k = key <;> simp [h]

end Buckets

/-! ### Searches -/

theorem findSome?_filter_of_none (p : α → Bool) (f : α → Option β) (xs : List α)
    (h : ∀ x ∈ xs, p x = false → f x = none) : (xs.filter p).findSome? f = xs.findSome? f := by
  induction xs with
  | nil => rfl
  | cons x xs ih =>
    have ih := ih fun y hy => h y (List.mem_cons_of_mem _ hy)
    rw [List.filter_cons, List.findSome?_cons]
    cases hp : p x with
    | true => rw [if_pos rfl, List.findSome?_cons, ih]
    | false => rw [if_neg Bool.false_ne_true, ih, h x List.mem_cons_self hp]

theorem findSome?_congr {f g : α → Option β} {xs : List α} (h : ∀ x ∈ xs, f x = g x) :
    xs.findSome? f = xs.findSome? g := by
  induction xs with
  | nil => rfl
  | cons x xs ih =>
    rw [List.findSome?_cons, List.findSome?_cons, h x List.mem_cons_self,
      ih fun y hy => h y (List.mem_cons_of_mem _ hy)]

theorem findSome?_flatMap {γ : Type*} (xs : List α) (g : α → List γ) (f : γ → Option β) :
    (xs.flatMap g).findSome? f = xs.findSome? fun x => (g x).findSome? f := by
  induction xs with
  | nil => rfl
  | cons x xs ih =>
    rw [List.flatMap_cons, List.findSome?_append, ih, List.findSome?_cons]
    cases (g x).findSome? f <;> rfl

theorem findSome?_range (xs : List α) (f : α → Option β) :
    ((List.range xs.length).findSome? fun k => xs[k]?.bind f) = xs.findSome? f := by
  induction xs with
  | nil => rfl
  | cons x xs ih =>
    rw [List.length_cons, List.range_succ_eq_map, List.findSome?_cons, List.findSome?_map,
      List.findSome?_cons, ← ih]
    rfl

end Qld.Lib
