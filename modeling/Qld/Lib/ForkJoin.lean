import Mathlib.Data.List.Perm.Basic

/-!
# Forks and joins

Work that is divided between tasks: a task makes its calls in sequence, or forks into two tasks
and joins them.  The two tasks of a fork run at the same time, so their calls come in any order
that keeps the order of each.

* `ForkJoin`, `ForkJoin.calls` — the tasks, and their calls from left to right;
* `Interleaves`, `ForkJoin.Runs` — the orders in which the calls can come;
* `ForkJoin.Runs.perm` — every run makes every call, and makes it once.
-/

namespace Qld.Lib

variable {α : Type*}

/-- A task: calls in sequence, or two tasks that run at the same time. -/
inductive ForkJoin (α : Type*) where
  | leaf (calls : List α)
  | join (left right : ForkJoin α)

/-- The third list merges the first two and keeps the order of each. -/
inductive Interleaves : List α → List α → List α → Prop
  | nil : Interleaves [] [] []
  | left {a : α} {l r out : List α} :
      Interleaves l r out → Interleaves (a :: l) r (a :: out)
  | right {a : α} {l r out : List α} :
      Interleaves l r out → Interleaves l (a :: r) (a :: out)

theorem Interleaves.perm {l r out : List α} (h : Interleaves l r out) : out.Perm (l ++ r) := by
  induction h with
  | nil => exact List.Perm.refl _
  | left _ ih => exact ih.cons _
  | right _ ih => exact (ih.cons _).trans List.perm_middle.symm

theorem Interleaves.append (l r : List α) : Interleaves l r (l ++ r) := by
  induction l with
  | nil =>
    induction r with
    | nil => exact Interleaves.nil
    | cons a r ih => exact ih.right
  | cons a l ih => exact ih.left

namespace ForkJoin

/-- The calls of a task, from left to right. -/
def calls : ForkJoin α → List α
  | leaf calls => calls
  | join left right => left.calls ++ right.calls

/-- The orders in which the calls of a task can come. -/
inductive Runs : ForkJoin α → List α → Prop
  | leaf (calls : List α) : Runs (leaf calls) calls
  | join {left right : ForkJoin α} {l r out : List α} :
      Runs left l → Runs right r → Interleaves l r out → Runs (join left right) out

/-- The tasks of a fork can run one after the other. -/
theorem runs_calls : ∀ work : ForkJoin α, work.Runs work.calls
  | leaf calls => Runs.leaf calls
  | join left right => (runs_calls left).join (runs_calls right) (Interleaves.append _ _)

/-- **Every run of a task makes each of its calls once.** -/
theorem Runs.perm {work : ForkJoin α} {out : List α} (h : work.Runs out) :
    out.Perm work.calls := by
  induction h with
  | leaf calls => exact List.Perm.refl _
  | join _ _ hmerge ihl ihr => exact hmerge.perm.trans (ihl.append ihr)

end ForkJoin

end Qld.Lib
