import Mathlib.Data.UInt
import Qld.Elf.Bytes
import Qld.Elf.Word
import Qld.Lib.Except

/-!
# Evaluation of expressions

The syntax tree of `script/ast.rs`, as far as expressions and assignments reach.

* `Expr` — an expression; `Expr.valueSymbols` — the symbols whose values it reads;
* `Assignment` — `symbol = expression` and its relatives;
* `Fill`, `DataSize`, `Assert` — what else stands inside an output section.

The evaluator of `script/eval.rs`.  What an expression reads comes from an `EvalContext`, whose
lookups run in a monad of the caller's: one that may fail, and that may keep a state.

* `Value` — a number, an absolute address or an offset into an output section;
* `EvalContext` — what expressions read, with the defaults of the source;
* `eval`, `evalSymbolAssignment`, `evalDotAssignment`, `fillPattern` — the evaluator;
* `eval_congr` — a value depends on the symbols that are read, and on no others.
-/

namespace Qld.Script

/-- A unary operator. -/
inductive UnaryOp where
  | neg
  | not
  | bitNot
  deriving DecidableEq, Repr

/-- A binary operator. -/
inductive BinaryOp where
  | mul | div | rem | add | sub | shl | shr
  | lt | gt | le | ge | eq | ne
  | and | xor | or | logicalAnd | logicalOr
  deriving DecidableEq, Repr

/-- An expression. -/
inductive Expr where
  | number (value : ℕ)
  | symbol (name : List UInt8)
  | dot
  | unary (op : UnaryOp) (operand : Expr)
  | binary (op : BinaryOp) (lhs rhs : Expr)
  | conditional (cond then_ otherwise : Expr)
  | absolute (operand : Expr)
  | addr (name : List UInt8)
  | align (align : Expr)
  | alignExpr (value align : Expr)
  | alignOf (name : List UInt8)
  | block (align : Expr)
  | dataSegmentAlign (maxPage commonPage : Expr)
  | dataSegmentEnd (operand : Expr)
  | dataSegmentRelroEnd (offset value : Expr)
  | defined (name : List UInt8)
  | length (name : List UInt8)
  | loadAddr (name : List UInt8)
  | log2Ceil (operand : Expr)
  | max (a b : Expr)
  | min (a b : Expr)
  | next (align : Expr)
  | origin (name : List UInt8)
  | segmentStart (name : List UInt8) (default : Expr)
  | sizeOf (name : List UInt8)
  | sizeOfHeaders
  | constant (name : List UInt8)
  | assert (condition : Expr) (message : List UInt8)

/-- The symbols whose values the expression reads, in source order: not those that are only tested
with `DEFINED`. -/
def Expr.valueSymbols : Expr → List (List UInt8)
  | symbol name => [name]
  | unary _ a | absolute a | align a | block a | dataSegmentEnd a | log2Ceil a | next a
  | segmentStart _ a | assert a _ => a.valueSymbols
  | binary _ a b | alignExpr a b | dataSegmentAlign a b | dataSegmentRelroEnd a b | max a b
  | min a b => a.valueSymbols ++ b.valueSymbols
  | conditional c a b => c.valueSymbols ++ a.valueSymbols ++ b.valueSymbols
  | number _ | dot | addr _ | alignOf _ | defined _ | length _ | loadAddr _ | origin _ | sizeOf _
  | sizeOfHeaders | constant _ => []

/-- An assignment operator. -/
inductive AssignOp where
  | assign | add | sub | mul | div | shl | shr | and | or | xor
  deriving DecidableEq, Repr

/-- The operator a compound assignment applies. -/
def AssignOp.binary : AssignOp → Option BinaryOp
  | assign => none
  | add => some .add
  | sub => some .sub
  | mul => some .mul
  | div => some .div
  | shl => some .shl
  | shr => some .shr
  | and => some .and
  | or => some .or
  | xor => some .xor

/-- Visibility and definition rule of an assignment. -/
inductive AssignKind where
  | normal
  | hidden
  | provide
  | provideHidden
  deriving DecidableEq, Repr

/-- An assignment.  The target `.` is the location counter. -/
structure Assignment where
  target : List UInt8
  op : AssignOp
  expr : Expr
  kind : AssignKind

namespace Assignment

/-- Whether this assigns the location counter. -/
def isDot (a : Assignment) : Bool := a.target = [46]

/-- The symbols whose values the assignment reads: a compound one reads its target first. -/
def valueSymbols (a : Assignment) : List (List UInt8) :=
  if a.op.binary.isSome && !a.isDot then a.target :: a.expr.valueSymbols
  else a.expr.valueSymbols

end Assignment

/-- Where a statement starts. -/
structure Span where
  file : ℕ
  line : ℕ
  column : ℕ
  offset : ℕ
  deriving DecidableEq, Repr

/-- A fill pattern.  A bare `0x` literal keeps its digits. -/
structure Fill where
  expr : Expr
  hexDigits : Option (List UInt8)

/-- Size of a data command. -/
inductive DataSize where
  | byte
  | short
  | long
  | quad
  | sQuad
  deriving DecidableEq, Repr

/-- Size in bytes. -/
def DataSize.bytes : DataSize → ℕ
  | byte => 1
  | short => 2
  | long => 4
  | quad | sQuad => 8

/-- An `ASSERT`: the link fails when the condition is zero. -/
structure Assert where
  expr : Expr
  message : List UInt8

open Qld.Elf Qld.Lib

/-! ### Values -/

/-- Which section a value belongs to. -/
inductive ValueSection (S : Type) where
  /-- A plain number. -/
  | number
  | absolute
  /-- An offset from the start of an output section. -/
  | relative (section_ : S)
  deriving DecidableEq, Repr

/-- The result of evaluating an expression. -/
structure Value (S : Type) where
  value : ℕ
  inSection : ValueSection S
  /-- The value came from the location counter, outside output sections. -/
  fromDot : Bool
  deriving DecidableEq, Repr

namespace Value

variable {S : Type}

def number (value : ℕ) : Value S := ⟨value, .number, false⟩

def absolute (value : ℕ) : Value S := ⟨value, .absolute, false⟩

def relative (section_ : S) (offset : ℕ) : Value S := ⟨offset, .relative section_, false⟩

/-- The absolute value, given the addresses of the output sections. -/
def resolve (sectionVma : S → ℕ) (v : Value S) : ℕ :=
  match v.inSection with
  | .relative s => wrappingAdd v.value (sectionVma s)
  | .number | .absolute => v.value

end Value

/-- Why an expression could not be evaluated. -/
inductive EvalError where
  | undefinedSymbol (name : List UInt8)
  | undefinedSection (name : List UInt8)
  | undefinedRegion (name : List UInt8)
  | unknownConstant (name : List UInt8)
  | divisionByZero
  | noLocationCounter
  | dotBackwards (before after : ℕ)
  | assertionFailed (message : List UInt8)
  | notYetKnown (what : String)
  | other (message : String)
  deriving DecidableEq, Repr

/-! ### Arithmetic -/

/-- `value`, rounded up to a multiple of `align`, which need not be a power of two.  Wraps. -/
def alignUp (value align : ℕ) : ℕ :=
  if align ≤ 1 then value
  else wrappingAdd value (wrappingSub align 1) / align * align % 2 ^ 64

/-- Where nothing wraps, the result is a multiple that is no lower. -/
theorem alignUp_spec (value align : ℕ) (h : value + (align - 1) < 2 ^ 64) :
    value ≤ alignUp value align ∧ alignUp value align < 2 ^ 64 ∧
      (1 ≤ align → align ∣ alignUp value align) := by
  unfold alignUp
  split
  · next hle =>
    refine ⟨Nat.le_refl _, by omega, fun hpos => ?_⟩
    rw [Nat.le_antisymm hle hpos]
    exact Nat.one_dvd value
  · next hlt =>
    have hsub : wrappingSub align 1 = align - 1 := by
      rw [wrappingSub]
      omega
    have hdiv := Nat.div_add_mod (value + (align - 1)) align
    have hmod := Nat.mod_lt (value + (align - 1)) (show 0 < align by omega)
    rw [Nat.mul_comm] at hdiv
    have hround : (value + (align - 1)) / align * align < 2 ^ 64 := by omega
    rw [hsub, wrappingAdd_of_lt h, Nat.mod_eq_of_lt hround]
    exact ⟨by omega, hround, fun _ => Nat.dvd_mul_left _ _⟩

/-- The least `n` with `2 ^ n ≥ value`, and 0 for 0. -/
def log2Ceil (value : ℕ) : ℕ := if value ≤ 1 then 0 else Nat.log2 (value - 1) + 1

/-- The `i64` with the bits of a `u64`. -/
def castSigned (value : ℕ) : ℤ := if value < 2 ^ 63 then value else value - 2 ^ 64

/-- The `u64` with the bits of an `i64`. -/
def castUnsigned (value : ℤ) : ℕ := (value % 2 ^ 64).toNat

/-! ### Contexts -/

/-- Everything an expression can read.  The defaults report a name as undefined. -/
structure EvalContext (m : Type → Type) (S : Type) [Monad m] [MonadExceptOf EvalError m] where
  sectionVma : S → ℕ
  currentSection : Option S := none
  dot : m ℕ := throw .noLocationCounter
  saneExpr : Bool := false
  symbol : List UInt8 → m (Value S) := fun name => throw (.undefinedSymbol name)
  isDefined : List UInt8 → m Bool := fun _ => pure false
  sectionAddr : List UInt8 → m (Value S) := fun name => throw (.undefinedSection name)
  sectionLoadAddr : List UInt8 → m ℕ := fun name => throw (.undefinedSection name)
  sectionSize : List UInt8 → m ℕ := fun name => throw (.undefinedSection name)
  sectionAlignment : List UInt8 → m ℕ := fun name => throw (.undefinedSection name)
  regionOrigin : List UInt8 → m ℕ := fun name => throw (.undefinedRegion name)
  regionLength : List UInt8 → m ℕ := fun name => throw (.undefinedRegion name)
  sizeofHeaders : m ℕ := throw (.notYetKnown "SIZEOF_HEADERS")
  maxPageSize : m ℕ := throw (.notYetKnown "MAXPAGESIZE")
  commonPageSize : m ℕ := throw (.notYetKnown "COMMONPAGESIZE")
  segmentStart : List UInt8 → ℕ → m ℕ := fun _ default => pure default
  dataSegmentAlign : ℕ → ℕ → ℕ → m ℕ := fun maxPage _ dot =>
    pure (wrappingAdd (alignUp dot maxPage) (dot &&& wrappingSub maxPage 1))
  dataSegmentRelroEnd : ℕ → ℕ → m ℕ := fun _ value => pure value
  dataSegmentEnd : ℕ → m ℕ := fun value => pure value
  assertionFailed : List UInt8 → m Unit := fun message => throw (.assertionFailed message)

variable {m : Type → Type} {S : Type} [Monad m] [MonadExceptOf EvalError m] [DecidableEq S]

namespace EvalContext

variable (ctx : EvalContext m S)

def outsideSectionsInsane : Bool := ctx.currentSection.isNone && !ctx.saneExpr

/-- A literal: absolute outside output sections, a number inside. -/
def literal (value : ℕ) : Value S :=
  if ctx.outsideSectionsInsane then .absolute value else .number value

/-- An absolute address, relative to the current output section. -/
def relFromAbs (address : ℕ) : Value S :=
  match ctx.currentSection with
  | some s => .relative s (wrappingSub address (ctx.sectionVma s))
  | none => { (.absolute address : Value S) with fromDot := true }

def makeAbs (v : Value S) : Value S := .absolute (v.resolve ctx.sectionVma)

/-- The value of a symbol.  An absolute one acts as a number inside output sections. -/
def symbolValue (name : List UInt8) : m (Value S) := do
  let v ← ctx.symbol name
  if v.inSection = .absolute ∧ (ctx.currentSection.isSome ∨ ctx.saneExpr) then
    return { v with inSection := .number }
  else return v

/-- Brings two operands to a common section.  The last component is that of the result. -/
def reconcile (lhs rhs : Value S) : Value S × Value S × ValueSection S :=
  if lhs.inSection ≠ rhs.inSection then
    if lhs.inSection ≠ .number ∧ rhs.inSection ≠ .number then
      (ctx.makeAbs lhs, ctx.makeAbs rhs, (ctx.makeAbs rhs).inSection)
    else if rhs.inSection = .number then
      ({ lhs with inSection := .number }, { rhs with inSection := lhs.inSection }, lhs.inSection)
    else (lhs, rhs, rhs.inSection)
  else (lhs, rhs, rhs.inSection)

/-- A comparison's result. -/
def compare (result : Bool) : Value S := .number result.toNat

/-- A binary operator on a value and an operand still to be evaluated. -/
def binaryValues (op : BinaryOp) (lhs : Value S) (rhs : m (Value S)) : m (Value S) :=
  match op with
  | .logicalAnd =>
    if lhs.value ≠ 0 then do
      let rhs ← rhs
      return compare (rhs.value ≠ 0)
    else return compare false
  | .logicalOr =>
    if lhs.value ≠ 0 then return compare true
    else do
      let rhs ← rhs
      return compare (rhs.value ≠ 0)
  | op => do
    let rhs ← rhs
    let r := ctx.reconcile lhs rhs
    let a := r.1.value
    let b := r.2.1.value
    -- Two values of one section give a number inside output sections.
    let result (value : ℕ) : Value S :=
      { value := value
        inSection :=
          if r.2.2 = r.1.inSection then
            if ctx.outsideSectionsInsane then .absolute else .number
          else r.2.2
        fromDot := r.1.fromDot || r.2.1.fromDot }
    match op with
    | .add => return result (wrappingAdd a b)
    | .sub => return result (wrappingSub a b)
    | .mul => return result (a * b % 2 ^ 64)
    | .shl => return result ((a <<< (b % 64)) % 2 ^ 64)
    | .shr => return result (a >>> (b % 64))
    | .and => return result (a &&& b)
    | .xor => return result (a ^^^ b)
    | .or => return result (a ||| b)
    | .div =>
      if b = 0 then throw .divisionByZero
      else return result (castUnsigned ((castSigned a).tdiv (castSigned b)))
    | .rem =>
      if b = 0 then throw .divisionByZero
      else return result (castUnsigned ((castSigned a).tmod (castSigned b)))
    | .lt => return compare (a < b)
    | .gt => return compare (a > b)
    | .le => return compare (a ≤ b)
    | .ge => return compare (a ≥ b)
    | .eq => return compare (a = b)
    | .ne => return compare (a ≠ b)
    | .logicalAnd => return compare (a ≠ 0 ∧ b ≠ 0)
    | .logicalOr => return compare (a ≠ 0 ∨ b ≠ 0)

end EvalContext

/-! ### The evaluator -/

/-- The value of a unary operator. -/
def unaryValue (op : UnaryOp) (value : ℕ) : ℕ :=
  match op with
  | .neg => wrappingSub 0 value
  | .not => (decide (value = 0)).toNat
  | .bitNot => U64_MAX - value

open EvalContext in
/-- Evaluates an expression. -/
def eval (ctx : EvalContext m S) : Expr → m (Value S)
  | .number value => pure (ctx.literal value)
  | .symbol name => ctx.symbolValue name
  | .dot => do return ctx.relFromAbs (← ctx.dot)
  | .unary op operand => do
    let v ← eval ctx operand
    return { v with value := unaryValue op v.value }
  | .binary op lhs rhs => do
    let lhs ← eval ctx lhs
    ctx.binaryValues op lhs (eval ctx rhs)
  | .conditional cond then_ otherwise => do
    let cond ← eval ctx cond
    if cond.value ≠ 0 then eval ctx then_ else eval ctx otherwise
  | .absolute operand => do return ctx.makeAbs (← eval ctx operand)
  | .align align | .block align => do
    let align ← eval ctx align
    return ctx.relFromAbs (alignUp (← ctx.dot) align.value)
  | .next align => do
    let align ← eval ctx align
    return .absolute (alignUp (← ctx.dot) (ctx.makeAbs align).value)
  | .alignExpr value align => do
    let value ← eval ctx value
    let align ← eval ctx align
    let r := ctx.reconcile value align
    return ⟨alignUp r.1.value r.2.1.value, r.2.2, r.1.fromDot || r.2.1.fromDot⟩
  | .log2Ceil operand => do return .number (log2Ceil (← eval ctx operand).value)
  | .max a b => do
    let a ← eval ctx a
    let b ← eval ctx b
    let r := ctx.reconcile a b
    return ⟨Nat.max r.1.value r.2.1.value, r.2.2, r.1.fromDot || r.2.1.fromDot⟩
  | .min a b => do
    let a ← eval ctx a
    let b ← eval ctx b
    let r := ctx.reconcile a b
    return ⟨Nat.min r.1.value r.2.1.value, r.2.2, r.1.fromDot || r.2.1.fromDot⟩
  | .dataSegmentAlign maxPage commonPage => do
    let maxPage ← eval ctx maxPage
    let commonPage ← eval ctx commonPage
    let r := ctx.reconcile maxPage commonPage
    let dot ← ctx.dot
    return .absolute (← ctx.dataSegmentAlign r.1.value r.2.1.value dot)
  | .dataSegmentRelroEnd offset value => do
    let offset ← eval ctx offset
    let value ← eval ctx value
    let r := ctx.reconcile value offset
    return ⟨← ctx.dataSegmentRelroEnd r.2.1.value r.1.value, r.2.2, false⟩
  | .dataSegmentEnd operand => do
    let v ← eval ctx operand
    return { v with value := ← ctx.dataSegmentEnd v.value }
  | .segmentStart name default => do
    let default ← eval ctx default
    return ctx.relFromAbs (← ctx.segmentStart name default.value)
  | .defined name => do return .number (← ctx.isDefined name).toNat
  | .addr name => ctx.sectionAddr name
  | .loadAddr name => do return .absolute (← ctx.sectionLoadAddr name)
  | .sizeOf name => do return .number (← ctx.sectionSize name)
  | .alignOf name => do return .number (← ctx.sectionAlignment name)
  | .length name => do return .number (← ctx.regionLength name)
  | .origin name => do return ctx.relFromAbs (← ctx.regionOrigin name)
  | .sizeOfHeaders => do return .number (← ctx.sizeofHeaders)
  | .constant name => do
    if name = ascii "MAXPAGESIZE" then return .number (← ctx.maxPageSize)
    else if name = ascii "COMMONPAGESIZE" then return .number (← ctx.commonPageSize)
    else throw (.unknownConstant name)
  | .assert condition message => do
    let v ← eval ctx condition
    if v.value = 0 then
      ctx.assertionFailed message
      return v
    else return v

/-- The value of an assignment's target, which a compound one reads. -/
def targetValue (ctx : EvalContext m S) (a : Assignment) : m (Value S) :=
  if a.isDot then do return ctx.relFromAbs (← ctx.dot) else ctx.symbolValue a.target

/-- The value an assignment gives, before it belongs to a section. -/
def assignedValue (ctx : EvalContext m S) (a : Assignment) : m (Value S) :=
  match a.op.binary with
  | none => eval ctx a.expr
  | some op => do
    let current ← targetValue ctx a
    ctx.binaryValues op current (eval ctx a.expr)

/-- Evaluates a symbol assignment.  A plain number becomes relative to the current output section,
or absolute outside one. -/
def evalSymbolAssignment (ctx : EvalContext m S) (a : Assignment) : m (Value S) := do
  let v ← assignedValue ctx a
  if v.inSection = .number then
    match ctx.currentSection with
    | some s => return { v with inSection := .relative s }
    | none => return { v with inSection := .absolute }
  else return v

/-- Evaluates an assignment to `.`: the new absolute location.  A plain number is an offset from
the current output section's start. -/
def evalDotAssignment (ctx : EvalContext m S) (a : Assignment) : m ℕ := do
  let v ← assignedValue ctx a
  let base :=
    match v.inSection with
    | .relative s => ctx.sectionVma s
    | .absolute => 0
    | .number => ctx.currentSection.elim 0 ctx.sectionVma
  let next := wrappingAdd v.value base
  if ctx.currentSection.isSome then
    let dot ← ctx.dot
    if next < dot then throw (.dotBackwards dot next) else return next
  else return next

/-- `char::to_digit` in base 16. -/
def hexDigit (d : UInt8) : Option ℕ :=
  if 48 ≤ d ∧ d ≤ 57 then some (d.toNat - 48)
  else if 97 ≤ d ∧ d ≤ 102 then some (d.toNat - 87)
  else if 65 ≤ d ∧ d ≤ 70 then some (d.toNat - 55)
  else none

/-- One byte for two digits.  `pending` is the first digit of a byte. -/
def hexBytes : Option ℕ → List UInt8 → List UInt8
  | _, [] => []
  | some high, d :: digits =>
    UInt8.ofNat ((high <<< 4) ||| (hexDigit d).getD 0) :: hexBytes none digits
  | none, d :: digits => hexBytes (some ((hexDigit d).getD 0)) digits

/-- The bytes a fill expression repeats: those of a hexadecimal literal, or the low 32 bits of the
value, the most significant byte first. -/
def fillPattern (ctx : EvalContext m S) (fill : Fill) : m (List UInt8) :=
  match fill.hexDigits with
  | some (d :: digits) =>
    -- An odd digit count means an implied leading zero.
    pure (hexBytes (if (d :: digits).length % 2 = 1 then some 0 else none) (d :: digits))
  | _ => do
    let v ← eval ctx fill.expr
    return beBytes 4 (v.value % 2 ^ 32)

/-! ### What a value depends on -/

section

variable {ctx : EvalContext m S} {f g : List UInt8 → m (Value S)}

/-- **A value depends on the symbols that are read, and on no others.** -/
theorem eval_congr {e : Expr} :
    (∀ name ∈ e.valueSymbols, f name = g name) →
      eval { ctx with symbol := f } e = eval { ctx with symbol := g } e := by
  induction e with
  | symbol name =>
    intro h
    simp only [eval, EvalContext.symbolValue, h name List.mem_cons_self]
  | number _ | dot | addr _ | alignOf _ | defined _ | length _ | loadAddr _ | origin _ | sizeOf _
  | sizeOfHeaders | constant _ =>
    intro _
    rfl
  | unary _ a ih | dataSegmentEnd a ih | log2Ceil a ih | assert a _ ih =>
    intro h
    simp only [eval, ih h]
  | absolute a ih | align a ih | block a ih | next a ih | segmentStart _ a ih =>
    intro h
    simp only [eval, ih h]
    rfl
  | binary _ a b iha ihb | alignExpr a b iha ihb | dataSegmentAlign a b iha ihb
  | dataSegmentRelroEnd a b iha ihb | max a b iha ihb | min a b iha ihb =>
    intro h
    have ha := iha fun name hname => h name (List.mem_append_left _ hname)
    have hb := ihb fun name hname => h name (List.mem_append_right _ hname)
    simp only [eval, ha, hb]
    rfl
  | conditional c a b ihc iha ihb =>
    intro h
    have hc := ihc fun name hname =>
      h name (List.mem_append_left _ (List.mem_append_left _ hname))
    have ha := iha fun name hname =>
      h name (List.mem_append_left _ (List.mem_append_right _ hname))
    have hb := ihb fun name hname => h name (List.mem_append_right _ hname)
    simp only [eval, hc, ha, hb]

/-- The same of an assignment, which reads its target when it is a compound one. -/
theorem assignedValue_congr {a : Assignment} (h : ∀ name ∈ a.valueSymbols, f name = g name) :
    assignedValue { ctx with symbol := f } a = assignedValue { ctx with symbol := g } a := by
  unfold assignedValue
  rw [Assignment.valueSymbols] at h
  cases hop : a.op.binary with
  | none =>
    rw [hop] at h
    exact eval_congr h
  | some op =>
    rw [hop] at h
    have hexpr : ∀ name ∈ a.expr.valueSymbols, f name = g name := by
      intro name hname
      apply h
      split
      · exact List.mem_cons_of_mem _ hname
      · exact hname
    simp only [eval_congr hexpr]
    have htarget :
        targetValue { ctx with symbol := f } a = targetValue { ctx with symbol := g } a := by
      cases hdot : a.isDot with
      | true =>
        simp only [targetValue, hdot, if_true]
        rfl
      | false =>
        have hname := h a.target (by simp [hdot])
        simp only [targetValue, hdot, Bool.false_eq_true, if_false, EvalContext.symbolValue, hname]
    rw [htarget]
    rfl

theorem evalSymbolAssignment_congr {a : Assignment}
    (h : ∀ name ∈ a.valueSymbols, f name = g name) :
    evalSymbolAssignment { ctx with symbol := f } a =
      evalSymbolAssignment { ctx with symbol := g } a := by
  simp only [evalSymbolAssignment, assignedValue_congr h]

end

end Qld.Script
