import Qld.Script.Eval

/-!
# Evaluation in a state

Expressions that are evaluated in a state which their lookups may change.

* `run` — an evaluation from a state; `Preserves` — what it changes is of a given kind;
* `EvalContext.Preserves` — the same of every lookup of a context;
* `eval_preserves`, `evalDotAssignment_preserves`, `evalSymbolAssignment_preserves` — **proved**:
  then so does every evaluation;
* `evalDotAssignment_le` — inside an output section an assignment to `.` does not go
  back.
-/

namespace Qld.Script

open Qld.Elf Qld.Lib

variable {σ α β S : Type}

/-- An evaluation that may fail and may change a state. -/
abbrev EvalM (σ : Type) : Type → Type := ExceptT EvalError (StateM σ)

/-- The result of an evaluation, and the state it leaves. -/
def run (x : EvalM σ α) (s : σ) : Except EvalError α × σ := StateT.run (ExceptT.run x) s

/-- A lookup that leaves the state alone. -/
def read (f : σ → Except EvalError α) : EvalM σ α := ExceptT.mk fun s => (f s, s)

/-- A lookup that may change the state. -/
def lookup (f : σ → Except EvalError α × σ) : EvalM σ α := ExceptT.mk f

@[simp] theorem run_read (f : σ → Except EvalError α) (s : σ) : run (read f) s = (f s, s) := rfl

@[simp] theorem run_lookup (f : σ → Except EvalError α × σ) (s : σ) : run (lookup f) s = f s := rfl

@[simp] theorem run_pure (a : α) (s : σ) : run (pure a : EvalM σ α) s = (.ok a, s) := rfl

@[simp] theorem run_throw (e : EvalError) (s : σ) :
    run (throw e : EvalM σ α) s = (.error e, s) := rfl

theorem run_bind (x : EvalM σ α) (f : α → EvalM σ β) (s : σ) :
    run (x >>= f) s =
      match run x s with
      | (.ok a, s') => run (f a) s'
      | (.error e, s') => (.error e, s') := by
  have hbind : run (x >>= f) s = ExceptT.bindCont f (run x s).1 (run x s).2 := rfl
  rw [hbind]
  cases run x s with
  | mk r s' =>
    cases r with
    | ok a => rfl
    | error e => rfl

/-! ### What an evaluation changes -/

/-- The state that the evaluation leaves is related to the one it starts in. -/
def Preserves (R : σ → σ → Prop) (x : EvalM σ α) : Prop := ∀ s, R s (run x s).2

namespace Preserves

variable {R : σ → σ → Prop}

theorem ret (hrefl : ∀ s, R s s) (a : α) : Preserves R (pure a : EvalM σ α) := hrefl

theorem fails (hrefl : ∀ s, R s s) (e : EvalError) : Preserves R (throw e : EvalM σ α) := hrefl

theorem reads (hrefl : ∀ s, R s s) (f : σ → Except EvalError α) : Preserves R (read f) := hrefl

theorem andThen (htrans : ∀ s t u, R s t → R t u → R s u) {x : EvalM σ α} {f : α → EvalM σ β}
    (hx : Preserves R x) (hf : ∀ a, Preserves R (f a)) : Preserves R (x >>= f) := by
  intro s
  have h := hx s
  rw [run_bind]
  split
  · next a s' hrun =>
    rw [hrun] at h
    exact htrans _ _ _ h (hf a s')
  · next e s' hrun =>
    rw [hrun] at h
    exact h

theorem cond {c : Prop} [Decidable c] {x y : EvalM σ α} (hx : Preserves R x)
    (hy : Preserves R y) : Preserves R (if c then x else y) := by
  split
  · exact hx
  · exact hy

theorem thenRet (hrefl : ∀ s, R s s) (htrans : ∀ s t u, R s t → R t u → R s u) {x : EvalM σ α}
    (hx : Preserves R x) (f : α → β) : Preserves R (x >>= fun a => pure (f a)) :=
  andThen htrans hx fun _ => ret hrefl _

end Preserves

/-- Every lookup of the context changes the state in the same manner. -/
structure EvalContext.Preserves (R : σ → σ → Prop) (ctx : EvalContext (EvalM σ) S) : Prop where
  dot : Script.Preserves R ctx.dot
  symbol : ∀ name, Script.Preserves R (ctx.symbol name)
  isDefined : ∀ name, Script.Preserves R (ctx.isDefined name)
  sectionAddr : ∀ name, Script.Preserves R (ctx.sectionAddr name)
  sectionLoadAddr : ∀ name, Script.Preserves R (ctx.sectionLoadAddr name)
  sectionSize : ∀ name, Script.Preserves R (ctx.sectionSize name)
  sectionAlignment : ∀ name, Script.Preserves R (ctx.sectionAlignment name)
  regionOrigin : ∀ name, Script.Preserves R (ctx.regionOrigin name)
  regionLength : ∀ name, Script.Preserves R (ctx.regionLength name)
  sizeofHeaders : Script.Preserves R ctx.sizeofHeaders
  maxPageSize : Script.Preserves R ctx.maxPageSize
  commonPageSize : Script.Preserves R ctx.commonPageSize
  segmentStart : ∀ name default, Script.Preserves R (ctx.segmentStart name default)
  dataSegmentAlign : ∀ a b c, Script.Preserves R (ctx.dataSegmentAlign a b c)
  dataSegmentRelroEnd : ∀ a b, Script.Preserves R (ctx.dataSegmentRelroEnd a b)
  dataSegmentEnd : ∀ a, Script.Preserves R (ctx.dataSegmentEnd a)
  assertionFailed : ∀ message, Script.Preserves R (ctx.assertionFailed message)

section

variable {R : σ → σ → Prop} {ctx : EvalContext (EvalM σ) S} [DecidableEq S]
variable (hrefl : ∀ s, R s s) (htrans : ∀ s t u, R s t → R t u → R s u)

include hrefl htrans

theorem binaryValues_preserves (op : BinaryOp) (lhs : Value S) {rhs : EvalM σ (Value S)}
    (hrhs : Preserves R rhs) : Preserves R (ctx.binaryValues op lhs rhs) := by
  have hret (f : Value S → Value S) : Preserves R (rhs >>= fun b => pure (f b)) :=
    hrhs.thenRet hrefl htrans f
  cases op with
  | logicalAnd => exact .cond (hret _) (.ret hrefl _)
  | logicalOr => exact .cond (.ret hrefl _) (hret _)
  | div | rem =>
    exact hrhs.andThen htrans fun b => .cond (.fails hrefl _) (.ret hrefl _)
  | mul | add | sub | shl | shr | lt | gt | le | ge | eq | ne | and | xor | or => exact hret _

/-- **An evaluation changes the state as its lookups do.** -/
theorem eval_preserves (h : ctx.Preserves R) (e : Expr) : Preserves R (eval ctx e) := by
  induction e with
  | number _ => exact .ret hrefl _
  | symbol name =>
    exact (h.symbol name).andThen htrans fun v => .cond (.ret hrefl _) (.ret hrefl _)
  | dot => exact h.dot.thenRet hrefl htrans _
  | unary op _ ih => exact ih.thenRet hrefl htrans _
  | binary op _ _ iha ihb =>
    exact iha.andThen htrans fun _ => binaryValues_preserves hrefl htrans op _ ihb
  | conditional _ _ _ ihc iha ihb =>
    exact ihc.andThen htrans fun c => .cond iha ihb
  | absolute _ ih => exact ih.thenRet hrefl htrans _
  | align _ ih | block _ ih | next _ ih =>
    exact ih.andThen htrans fun _ => h.dot.thenRet hrefl htrans _
  | alignExpr _ _ iha ihb | max _ _ iha ihb | min _ _ iha ihb =>
    exact iha.andThen htrans fun _ => ihb.thenRet hrefl htrans _
  | log2Ceil _ ih => exact ih.thenRet hrefl htrans _
  | dataSegmentAlign _ _ iha ihb =>
    refine iha.andThen htrans fun _ => ihb.andThen htrans fun _ => h.dot.andThen htrans fun _ => ?_
    exact (h.dataSegmentAlign _ _ _).thenRet hrefl htrans _
  | dataSegmentRelroEnd _ _ iha ihb =>
    refine iha.andThen htrans fun _ => ihb.andThen htrans fun _ => ?_
    exact (h.dataSegmentRelroEnd _ _).thenRet hrefl htrans _
  | dataSegmentEnd _ ih =>
    exact ih.andThen htrans fun _ => (h.dataSegmentEnd _).thenRet hrefl htrans _
  | segmentStart name _ ih =>
    exact ih.andThen htrans fun _ => (h.segmentStart name _).thenRet hrefl htrans _
  | defined name => exact (h.isDefined name).thenRet hrefl htrans _
  | addr name => exact h.sectionAddr name
  | loadAddr name => exact (h.sectionLoadAddr name).thenRet hrefl htrans _
  | sizeOf name => exact (h.sectionSize name).thenRet hrefl htrans _
  | alignOf name => exact (h.sectionAlignment name).thenRet hrefl htrans _
  | length name => exact (h.regionLength name).thenRet hrefl htrans _
  | origin name => exact (h.regionOrigin name).thenRet hrefl htrans _
  | sizeOfHeaders => exact h.sizeofHeaders.thenRet hrefl htrans _
  | constant name =>
    have hcommon := h.commonPageSize.thenRet hrefl htrans (Value.number (S := S))
    exact .cond (h.maxPageSize.thenRet hrefl htrans _) (.cond hcommon (.fails hrefl _))
  | assert _ message ih =>
    refine ih.andThen htrans fun v => ?_
    exact .cond ((h.assertionFailed message).thenRet hrefl htrans _) (.ret hrefl _)

theorem assignedValue_preserves (h : ctx.Preserves R) (a : Assignment) :
    Preserves R (assignedValue ctx a) := by
  unfold assignedValue
  split
  · exact eval_preserves hrefl htrans h _
  · next op _ =>
    have htarget : Preserves R (targetValue ctx a) :=
      .cond (h.dot.thenRet hrefl htrans _) (eval_preserves hrefl htrans h (.symbol a.target))
    refine htarget.andThen htrans fun current => ?_
    exact binaryValues_preserves hrefl htrans op current (eval_preserves hrefl htrans h a.expr)

theorem evalSymbolAssignment_preserves (h : ctx.Preserves R) (a : Assignment) :
    Preserves R (evalSymbolAssignment ctx a) := by
  refine (assignedValue_preserves hrefl htrans h a).andThen htrans fun v => ?_
  split
  · split
    · exact .ret hrefl _
    · exact .ret hrefl _
  · exact .ret hrefl _

theorem evalDotAssignment_preserves (h : ctx.Preserves R) (a : Assignment) :
    Preserves R (evalDotAssignment ctx a) := by
  refine (assignedValue_preserves hrefl htrans h a).andThen htrans fun v => ?_
  refine .cond (h.dot.andThen htrans fun dot => ?_) (.ret hrefl _)
  exact .cond (.fails hrefl _) (.ret hrefl _)

end

theorem run_bounded {n d next : ℕ} {e : EvalError} {s s' : σ}
    (h : run (if n < d then throw e else pure n : EvalM σ ℕ) s = (.ok next, s')) :
    next = n ∧ s' = s ∧ d ≤ n := by
  split at h
  · cases h
  · next hle =>
    cases h
    exact ⟨rfl, rfl, Nat.le_of_not_lt hle⟩

/-- **Inside an output section an assignment to `.` does not go back.** -/
theorem evalDotAssignment_le {ctx : EvalContext (EvalM σ) S} [DecidableEq S] (dot : σ → ℕ)
    (hdot : ctx.dot = read fun s => .ok (dot s)) (hcurrent : ctx.currentSection.isSome)
    {a : Assignment} {s s' : σ} {next : ℕ} (h : run (evalDotAssignment ctx a) s = (.ok next, s')) :
    dot s' ≤ next ∧ next < 2 ^ 64 := by
  rw [evalDotAssignment, run_bind] at h
  split at h
  · simp only [if_pos hcurrent, hdot, run_bind, run_read] at h
    obtain ⟨rfl, rfl, hle⟩ := run_bounded h
    exact ⟨hle, Nat.mod_lt _ (Nat.two_pow_pos 64)⟩
  · cases h

end Qld.Script
