import Qld.Lib.Except

/-!
# Computations that may stop

A computation in a language whose arithmetic and indexing are checked: it may report an error, it
may panic, and a loop may go on past the rounds it was given.

* `Stop`, `Outcome` — the ways to stop, and a computation;
* `okOr`, `orPanic`, `mapErr` — an option as a computation, and errors put in other words;
* `Safe` — it does not panic, and its loops end; `Safe.bind`, `Safe.ite` — a computation
  is safe when its parts are.
-/

namespace Qld.Lib

variable {ε ε' α β : Type}

/-- Why a computation has no result. -/
inductive Stop (ε : Type) where
  | error (e : ε)
  /-- An index, a slice, a shift or a difference out of range. -/
  | panic
  /-- A loop that goes on past its rounds. -/
  | endless
  deriving DecidableEq, Repr

abbrev Outcome (ε α : Type) := Except (Stop ε) α

namespace Outcome

/-- Reports an error. -/
abbrev fail (e : ε) : Outcome ε α := .error (.error e)

/-- `ok_or`. -/
def okOr (x : Option α) (e : ε) : Outcome ε α := x.elim (fail e) .ok

/-- A value that the program takes to be there. -/
def orPanic (x : Option α) : Outcome ε α := x.elim (.error .panic) .ok

/-- `map_err`. -/
def mapErr (f : ε → ε') : Outcome ε α → Outcome ε' α
  | .ok a => .ok a
  | .error (.error e) => fail (f e)
  | .error .panic => .error .panic
  | .error .endless => .error .endless

@[simp] theorem okOr_some (a : α) (e : ε) : okOr (some a) e = .ok a := rfl

@[simp] theorem okOr_none (e : ε) : okOr (none : Option α) e = fail e := rfl

@[simp] theorem orPanic_some (a : α) : (orPanic (some a) : Outcome ε α) = .ok a := rfl

@[simp] theorem orPanic_none : (orPanic (none : Option α) : Outcome ε α) = .error .panic := rfl

variable {a : α}

theorem okOr_eq_ok {x : Option α} {e : ε} : okOr x e = .ok a ↔ x = some a := by
  cases x <;> simp

variable {x : Outcome ε α}

/-! ### Safety -/

/-- Neither a panic nor an endless loop. -/
def Safe (x : Outcome ε α) : Prop := x ≠ .error .panic ∧ x ≠ .error .endless

@[simp] theorem safe_ok (a : α) : Safe (.ok a : Outcome ε α) := by simp [Safe]

@[simp] theorem safe_fail (e : ε) : Safe (fail e : Outcome ε α) := by simp [Safe]

@[simp] theorem safe_okOr (x : Option α) (e : ε) : Safe (okOr x e) := by
  cases x <;> simp

/-- **A sequence is safe when both parts are.** -/
theorem Safe.bind {f : α → Outcome ε β} (hx : Safe x) (hf : ∀ a, x = .ok a → Safe (f a)) :
    Safe (x >>= f) := by
  cases x with
  | ok a => exact hf a rfl
  | error stop =>
    cases stop with
    | error e => exact safe_fail e
    | panic => exact absurd rfl hx.1
    | endless => exact absurd rfl hx.2

theorem Safe.ite {p : Prop} [Decidable p] {y : Outcome ε α} (hx : p → Safe x) (hy : ¬p → Safe y) :
    Safe (if p then x else y) := by
  split
  · next hp => exact hx hp
  · next hp => exact hy hp

end Outcome

end Qld.Lib
