import Qld.Elf.ScriptLayout.Sort
import Qld.Elf.Values
import Qld.Script.EvalState

/-!
# The engine of a linker script

The state that `Engine` of `elf/script_layout/engine.rs` assigns addresses in, and what expressions
read of it.

* `Engine` — the location counter, the output sections, symbols and errors;
* `Link` — what does not change during an assignment of addresses;
* `Engine.context` — the lookups of expressions;
* `Engine.assignment` — an assignment to a symbol or to `.`;
* `Kept` — what evaluations leave alone; `assignment_moved` — inside an output section
  an assignment moves `.` forward, if at all.
-/

namespace Qld.Elf.ScriptLayout

open Qld.Lib Qld.Script

def U32_MAX : ℕ := 2 ^ 32 - 1

/-! ### What a link knows -/

/-- How a symbol that is not the script's is defined. -/
inductive SymbolDef where
  | inSection (file section_ value : ℕ)
  | absolute (value : ℕ)
  /-- Defined by the linker (`__start_SEC` and friends). -/
  | linker
  /-- Defined some other way: its address is not available to scripts. -/
  | other
  | undefined
  deriving DecidableEq, Repr

/-- A record of an `.eh_frame` section, and where it went. -/
structure EhRecord where
  live : Bool
  offset : ℕ
  size : ℕ
  outOffset : ℕ
  deriving DecidableEq, Repr

/-- The input sections, as far as the values of their symbols need them. -/
structure Inputs where
  id : ℕ → ℕ → Option ℕ
  live : ℕ → Bool
  resolve : ℕ → Option ℕ
  outputOf : ℕ → Option ℕ
  /-- How a section is used, and its size. -/
  section_ : ℕ → Option (SectionKind × ℕ)
  groupOf : ℕ → Option ℕ
  offsetInGroup : ℕ → ℕ → Option ℕ
  ehRecords : ℕ → Option (List EhRecord)

/-- A statement of `SECTIONS`. -/
inductive Statement where
  | assign
  | assert
  | output (index : ℕ)
  deriving DecidableEq, Repr

/-- The thunks and erratum patches that room is reserved for, by output section and pool. -/
structure Thunks where
  entries : List (ℕ × ℕ)
  patches : List (ℕ × ℕ)
  thunkSize : ℕ

def ERRATUM_PATCH_SIZE : ℕ := 8

/-- The bytes that the thunks and patches of a pool occupy. -/
def Thunks.sizeOf (thunks : Thunks) (output pool : ℕ) : ℕ :=
  saturatingAdd (min (thunks.entries.count (output, pool) * thunks.thunkSize) U64_MAX)
    (min (thunks.patches.count (output, pool) * ERRATUM_PATCH_SIZE) U64_MAX)

/-- What does not change while addresses are assigned. -/
structure Link where
  inputs : Inputs
  statements : List Statement
  enabled : ℕ → Bool
  /-- Whether the type of an output section makes it not allocated. -/
  noalloc : ℕ → Bool
  tls : ℕ → Bool
  byName : List UInt8 → Option ℕ
  regionNamed : List UInt8 → Option ℕ
  defaultRegion : ℕ
  symIndex : List UInt8 → Option ℕ
  defs : List UInt8 → Option SymbolDef
  saneExpr : Bool
  relro : Bool
  headersSize : ℕ
  maxPage : ℕ
  commonPage : ℕ
  textSegment : Option ℕ
  imageBase : Option ℕ
  rodataSegment : Option ℕ
  ldataSegment : Option ℕ
  endian : Endian
  /-- The linker's version line, as `LINKER_VERSION` stores it. -/
  comment : List UInt8
  thunks : Thunks
  /-- Whether output sections get thunk pools. -/
  pooled : Bool
  /-- The content between two pools. -/
  poolSpacing : ℕ

/-! ### The state -/

/-- An output section during assignment. -/
structure OutState where
  exists_ : Bool
  vma : ℕ
  lma : ℕ
  size : ℕ
  align : ℕ
  /-- Whether the inputs make the section allocated. -/
  inputAlloc : Bool
  dotMoved : Bool
  hasData : Bool
  /-- Offset, size and pattern of each padding. -/
  fills : List (ℕ × ℕ × ℕ)
  data : List (ℕ × List UInt8)
  /-- Index, content offset and offset of each thunk pool. -/
  pools : List (ℕ × ℕ × ℕ)
  deriving DecidableEq, Repr

/-- A memory region during assignment. -/
structure RegionState where
  origin : ℕ
  length : ℕ
  current : ℕ
  deriving DecidableEq, Repr

/-- A symbol of the script, and the pass it was last assigned in. -/
structure SymState where
  value : Option (Value ℕ)
  pass : ℕ
  needed : Bool
  deriving DecidableEq, Repr

/-- `DATA_SEGMENT_*` phases. -/
inductive SegPhase where
  | none
  | alignSeen
  | relroSeen
  | endSeen
  | relroAdjust
  | adjust
  | done
  deriving DecidableEq, Repr

structure DataSeg where
  phase : SegPhase
  base : ℕ
  relroEnd : ℕ
  relroOffset : ℕ
  end_ : ℕ
  minBase : ℕ
  maxPage : ℕ
  commonPage : ℕ
  deriving DecidableEq, Repr

/-- The text of an error: of one that an evaluation ends with, or the message of an assertion. -/
inductive Failure where
  | eval (error : EvalError)
  | assertion (message : List UInt8)
  deriving DecidableEq, Repr

structure Engine where
  entries : List (List Entry)
  outs : List OutState
  regions : List RegionState
  syms : List SymState
  /-- Offset in its output of each input section member. -/
  memberOffset : List ℕ
  mergeOffset : List ℕ
  dot : ℕ
  /-- The output section that is being laid out. -/
  current : Option ℕ
  lastOs : Option ℕ
  preferNext : Bool
  foundEnd : Bool
  pass : ℕ
  finalPass : Bool
  span : Span
  dataseg : DataSeg
  fillPatterns : List (List UInt8)
  errors : List (Span × Failure)

/-! ### The data segment -/

namespace DataSeg

variable (seg : DataSeg)

/-- `DATA_SEGMENT_ALIGN`. -/
def alignTo (relro : Bool) (maxPage commonPage dot : ℕ) : ℕ × DataSeg :=
  let value := Script.alignUp dot maxPage
  match seg.phase with
  | .relroAdjust => (seg.base, seg)
  | .adjust =>
    if commonPage < maxPage then
      (wrappingAdd value
        (wrappingSub (wrappingAdd dot commonPage) 1 &&& wrappingSub maxPage commonPage), seg)
    else (value, seg)
  | phase =>
    let value := if relro then value else wrappingAdd value (dot &&& wrappingSub maxPage 1)
    if phase = .none then
      (value, { seg with
        phase := .alignSeen
        base := value
        minBase := Script.alignUp dot maxPage
        commonPage := commonPage
        maxPage := maxPage
        relroEnd := 0 })
    else (value, seg)

/-- `DATA_SEGMENT_RELRO_END`. -/
def relroEndAt (offset value : ℕ) : ℕ × DataSeg :=
  let seg := { seg with relroOffset := offset }
  if seg.phase = .alignSeen ∨ seg.phase = .adjust ∨ seg.phase = .relroAdjust ∨
      seg.phase = .done then
    let seg :=
      if seg.phase = .alignSeen ∨ seg.phase = .relroAdjust then
        { seg with relroEnd := wrappingAdd value offset }
      else seg
    let page := Nat.max seg.maxPage 1
    if seg.phase = .relroAdjust ∧ seg.relroEnd &&& wrappingSub page 1 ≠ 0 then
      let seg := { seg with relroEnd := Script.alignUp seg.relroEnd page }
      (wrappingSub seg.relroEnd offset, seg)
    else if seg.phase = .alignSeen then (value, { seg with phase := .relroSeen })
    else (value, seg)
  else (value, seg)

/-- `DATA_SEGMENT_END`. -/
def endAt (value : ℕ) : DataSeg :=
  if seg.phase = .alignSeen ∨ seg.phase = .relroSeen then
    { seg with phase := .endSeen, end_ := value }
  else seg

end DataSeg

/-! ### Lookups -/

namespace Engine

variable (link : Link) (e : Engine)

def vmaOf (index : ℕ) : ℕ := e.outs[index]?.elim 0 OutState.vma

def allocOf (index : ℕ) : Bool :=
  match e.outs[index]? with
  | none => false
  | some out => !link.noalloc index && (out.inputAlloc || out.dotMoved || out.hasData)

/-- The statements behind the one of an output section. -/
def after (last : ℕ) : Option (List Statement) :=
  (link.statements.findIdx? fun s => s = .output last).map fun p => link.statements.drop (p + 1)

/-- The first of some statements whose output section meets a condition. -/
def firstOutput (accepts : ℕ → Bool) (statements : List Statement) : Option ℕ :=
  statements.findSome? fun
    | .output i => if accepts i then some i else none
    | _ => none

/-- Whether an output section is laid out. -/
def present (i : ℕ) : Bool := link.enabled i && e.outs[i]?.any OutState.exists_

/-- The first allocated output section behind the last one. -/
def nextAllocOutput : Option ℕ := do
  let statements ← e.lastOs.elim (some link.statements) (after link)
  firstOutput (fun i => e.present link i && e.allocOf link i && !link.tls i) statements

/-- The output section that a symbol assigned from `.` outside of one belongs to. -/
def sectionForDot : Option ℕ :=
  if e.lastOs.isNone ∨ (e.preferNext ∧ e.foundEnd = false) then
    (e.nextAllocOutput link).or e.lastOs
  else e.lastOs

def outputByName (name : List UInt8) : Option ℕ :=
  if name = ascii "NEXT_SECTION" then do
    let statements ← after link (← e.lastOs)
    firstOutput (e.present link) statements
  else link.byName name

/-- Where an offset of a merged section went. -/
def mergedOffset (id size value : ℕ) : Option ℕ := do
  let group ← link.inputs.groupOf id
  let base ← e.mergeOffset[group]?
  if value = size ∧ size ≠ 0 then
    let last ← link.inputs.offsetInGroup id (value - 1)
    checkedAdd (← checkedAdd base last) 1
  else checkedAdd base (← link.inputs.offsetInGroup id value)

/-- Where an offset of an `.eh_frame` section went. -/
def ehFrameOffset (id value : ℕ) : Option ℕ := do
  let start ← e.memberOffset[id]?
  let records ← link.inputs.ehRecords id
  if value ≤ U32_MAX then
    match records.find? fun r => r.live && r.offset ≤ value && value - r.offset < r.size with
    | none => some start
    | some r => some (wrappingAdd start ((r.outOffset + (value - r.offset)) % 2 ^ 32))
  else none

/-- The value of a symbol of an object file. -/
def objectSymbol (file section_ value : ℕ) : Option (Value ℕ) := do
  let id ← link.inputs.id file section_
  let id ← if link.inputs.live id then some id else link.inputs.resolve id
  let output ← link.inputs.outputOf id
  let (kind, size) ← link.inputs.section_ id
  let offset ←
    match kind with
    | .merge => e.mergedOffset link id size value
    | .ehFrame => e.ehFrameOffset link id value
    | .ignored | .regular => (e.memberOffset[id]?).bind (checkedAdd · value)
  some (.relative output offset)

/-- The value of a symbol that the linker makes, such as `__start_X`. -/
def linkerSymbol (name : List UInt8) : Option (Value ℕ) := do
  let start := name.dropPrefix? (ascii "__start_")
  let stop := name.dropPrefix? (ascii "__stop_")
  let section_ ← start.or stop
  let index ← link.byName section_
  let out ← e.outs[index]?
  some (.relative index (if stop.isSome then out.size else 0))

def symbol (name : List UInt8) : Except EvalError (Value ℕ) :=
  match (link.symIndex name).bind fun slot => e.syms[slot]?.bind SymState.value with
  | some value => .ok value
  | none =>
    match link.defs name with
    | some (.inSection file section_ value) =>
      match e.objectSymbol link file section_ value with
      | some v => .ok v
      | none =>
        -- The text names the symbol as well.
        if e.finalPass then .error (.other "unresolvable symbol referenced in expression")
        else .ok (.absolute 0)
    | some (.absolute value) => .ok (.absolute value)
    | some .linker => .ok ((e.linkerSymbol link name).getD (.absolute 0))
    | some .other => .ok (.absolute 0)
    | some .undefined | none =>
      if e.finalPass then .error (.undefinedSymbol name) else .ok (.absolute 0)

def isDefined (name : List UInt8) : Bool :=
  if (link.symIndex name).any fun slot =>
      e.syms[slot]?.any fun s => s.value.isSome && s.pass = e.pass then true
  else
    match link.defs name with
    | some .undefined | none => false
    | some _ => true

def sectionAddr (name : List UInt8) : Except EvalError (Value ℕ) :=
  match e.outputByName link name with
  | some index => .ok (.relative index 0)
  | none => .error (.undefinedSection name)

def sectionLoadAddr (name : List UInt8) : Except EvalError ℕ :=
  match e.outputByName link name with
  | some index => .ok (e.outs[index]?.elim 0 OutState.lma)
  | none => .error (.undefinedSection name)

/-- `SIZEOF` and `ALIGNOF`: a number of an output section, another for one that is not there, and
one for `NEXT_SECTION` behind the last. -/
def sectionNumber (number : OutState → ℕ) (next : ℕ) (name : List UInt8) : Except EvalError ℕ :=
  match e.outputByName link name with
  | some index => .ok ((e.outs[index]?.filter OutState.exists_).elim 0 number)
  | none =>
    if name = ascii "NEXT_SECTION" then .ok next
    else if e.finalPass then .error (.undefinedSection name)
    else .ok 0

def sectionSize (name : List UInt8) : Except EvalError ℕ :=
  e.sectionNumber link OutState.size 0 name

def sectionAlignment (name : List UInt8) : Except EvalError ℕ :=
  e.sectionNumber link (fun out => Nat.max out.align 1) 1 name

/-- A number of a memory region. -/
def regionNumber (number : RegionState → ℕ) (name : List UInt8) : Except EvalError ℕ :=
  match (link.regionNamed name).bind fun r => e.regions[r]? with
  | some region => .ok (number region)
  | none => .error (.undefinedRegion name)

def segmentStart (name : List UInt8) (default : ℕ) : ℕ :=
  (if name = ascii "text-segment" then link.textSegment.or link.imageBase
    else if name = ascii "rodata-segment" then link.rodataSegment
    else if name = ascii "ldata-segment" then link.ldataSegment
    else none).getD default

def dataSegmentAlign (maxPage commonPage dot : ℕ) : Except EvalError ℕ × Engine :=
  if e.current.isSome then (.error (.other "DATA_SEGMENT_ALIGN used inside an output section"), e)
  else
    let r := e.dataseg.alignTo link.relro maxPage commonPage dot
    (.ok r.1, { e with dataseg := r.2 })

def dataSegmentRelroEnd (offset value : ℕ) : Except EvalError ℕ × Engine :=
  let r := e.dataseg.relroEndAt offset value
  (.ok r.1, { e with dataseg := r.2 })

def dataSegmentEnd (value : ℕ) : Except EvalError ℕ × Engine :=
  (.ok value, { e with dataseg := e.dataseg.endAt value })

def assertionFailed (message : List UInt8) : Except EvalError Unit × Engine :=
  (.ok (),
    if e.finalPass then { e with errors := e.errors ++ [(e.span, .assertion message)] } else e)

/-- What expressions read.  No evaluation changes the addresses or the current section. -/
def context : EvalContext (EvalM Engine) ℕ where
  sectionVma := e.vmaOf
  currentSection := e.current
  dot := read fun e => .ok e.dot
  saneExpr := link.saneExpr
  symbol name := read fun e => e.symbol link name
  isDefined name := read fun e => .ok (e.isDefined link name)
  sectionAddr name := read fun e => e.sectionAddr link name
  sectionLoadAddr name := read fun e => e.sectionLoadAddr link name
  sectionSize name := read fun e => e.sectionSize link name
  sectionAlignment name := read fun e => e.sectionAlignment link name
  regionOrigin name := read fun e => e.regionNumber link RegionState.origin name
  regionLength name := read fun e => e.regionNumber link RegionState.length name
  sizeofHeaders := pure link.headersSize
  maxPageSize := pure link.maxPage
  commonPageSize := pure link.commonPage
  segmentStart name default := pure (segmentStart link name default)
  dataSegmentAlign maxPage commonPage dot := lookup fun e =>
    e.dataSegmentAlign link maxPage commonPage dot
  dataSegmentRelroEnd offset value := lookup fun e => e.dataSegmentRelroEnd offset value
  dataSegmentEnd value := lookup fun e => e.dataSegmentEnd value
  assertionFailed message := lookup fun e => e.assertionFailed message

/-! ### Statements -/

def recordError (span : Span) (error : EvalError) : Engine :=
  if e.finalPass then { e with errors := e.errors ++ [(span, .eval error)] } else e

/-- An assignment to `.`. -/
def assignDot (a : Assignment) (span : Span) : Engine :=
  let e := if e.current.isNone then { e with preferNext := true } else e
  match run (evalDotAssignment (e.context link) a) e with
  | (.ok next, e) =>
    let e := { e with dot := next }
    if e.current.isNone then
      { e with regions := e.regions.modify link.defaultRegion fun r => { r with current := next } }
    else e
  | (.error error, e) => e.recordError span error

/-- A symbol assigned from `.` outside output sections belongs to the one that holds `.`. -/
def placeValue (value : Value ℕ) : Value ℕ :=
  if value.fromDot ∧ value.inSection = .absolute then
    match (e.sectionForDot link).bind fun index => e.outs[index]?.map (index, ·) with
    | some (index, out) => .relative index (wrappingSub value.value out.vma)
    | none => value
  else value

/-- An assignment to a symbol. -/
def assignSymbol (a : Assignment) (span : Span) (slot : ℕ) : Engine :=
  if (a.kind = .provide ∨ a.kind = .provideHidden) ∧ e.syms[slot]?.any SymState.needed = false then
    e
  else
    match run (evalSymbolAssignment (e.context link) a) e with
    | (.ok value, e) =>
      let value := e.placeValue link value
      { e with syms := e.syms.modify slot fun s => { s with value := some value, pass := e.pass } }
    | (.error error, e) => e.recordError span error

def assignment (a : Assignment) (span : Span) : Engine :=
  let e := { e with span := span }
  let e :=
    if (a.target.dropWhile fun b => b = 95) = ascii "end" then { e with foundEnd := true } else e
  if a.isDot then e.assignDot link a span
  else
    match link.symIndex a.target with
    | none => e
    | some slot => e.assignSymbol link a span slot

def assert (a : Assert) (span : Span) : Engine :=
  let e := { e with span := span }
  match run (eval (e.context link) a.expr) e with
  | (.ok value, e) =>
    if value.value = 0 ∧ e.finalPass then
      { e with errors := e.errors ++ [(span, .assertion a.message)] }
    else e
  | (.error error, e) => e.recordError span error

end Engine

/-! ### What evaluations leave alone -/

/-- The members, the output sections, `.` and the errors recorded so far are as they were. -/
structure Kept (e e' : Engine) : Prop where
  entries : e'.entries = e.entries
  outs : e'.outs = e.outs
  dot : e'.dot = e.dot
  current : e'.current = e.current
  finalPass : e'.finalPass = e.finalPass
  errors : e.errors <+: e'.errors

theorem Kept.refl (e : Engine) : Kept e e := ⟨rfl, rfl, rfl, rfl, rfl, List.prefix_rfl⟩

theorem Kept.trans (e e' e'' : Engine) (h : Kept e e') (h' : Kept e' e'') : Kept e e'' :=
  ⟨h'.entries.trans h.entries, h'.outs.trans h.outs, h'.dot.trans h.dot,
    h'.current.trans h.current, h'.finalPass.trans h.finalPass, h.errors.trans h'.errors⟩

namespace Engine

variable {link : Link} {e e' : Engine}

theorem kept_dataseg (e : Engine) (seg : DataSeg) : Kept e { e with dataseg := seg } :=
  ⟨rfl, rfl, rfl, rfl, rfl, List.prefix_rfl⟩

theorem kept_errors (e : Engine) (errors : List (Span × Failure)) :
    Kept e { e with errors := e.errors ++ errors } :=
  ⟨rfl, rfl, rfl, rfl, rfl, List.prefix_append _ _⟩

theorem kept_span (e : Engine) (span : Span) : Kept e { e with span := span } :=
  ⟨rfl, rfl, rfl, rfl, rfl, List.prefix_rfl⟩

theorem kept_recordError (e : Engine) (span : Span) (error : EvalError) :
    Kept e (e.recordError span error) := by
  unfold recordError
  split
  · exact kept_errors e _
  · exact .refl e

/-- **No lookup of an expression moves anything.** -/
theorem context_preserves (link : Link) (e : Engine) : (e.context link).Preserves Kept where
  dot := .reads Kept.refl _
  symbol _ := .reads Kept.refl _
  isDefined _ := .reads Kept.refl _
  sectionAddr _ := .reads Kept.refl _
  sectionLoadAddr _ := .reads Kept.refl _
  sectionSize _ := .reads Kept.refl _
  sectionAlignment _ := .reads Kept.refl _
  regionOrigin _ := .reads Kept.refl _
  regionLength _ := .reads Kept.refl _
  sizeofHeaders := .ret Kept.refl _
  maxPageSize := .ret Kept.refl _
  commonPageSize := .ret Kept.refl _
  segmentStart _ _ := .ret Kept.refl _
  dataSegmentAlign maxPage commonPage dot s := by
    show Kept s (s.dataSegmentAlign link maxPage commonPage dot).2
    unfold dataSegmentAlign
    split
    · exact .refl s
    · exact kept_dataseg s _
  dataSegmentRelroEnd _ _ s := kept_dataseg s _
  dataSegmentEnd _ s := kept_dataseg s _
  assertionFailed message s := by
    show Kept s (s.assertionFailed message).2
    unfold assertionFailed
    dsimp only
    split
    · exact kept_errors s _
    · exact .refl s

theorem eval_kept (link : Link) (e : Engine) (expr : Expr) (s : Engine) :
    Kept s (run (eval (e.context link) expr) s).2 :=
  eval_preserves Kept.refl Kept.trans (context_preserves link e) expr s

theorem assert_kept (a : Assert) (span : Span) : Kept e (e.assert link a span) := by
  have hspan := kept_span e span
  have hrun := eval_kept link { e with span := span } a.expr { e with span := span }
  unfold assert
  dsimp only
  split
  · next value t heq =>
    rw [heq] at hrun
    split
    · exact (hspan.trans _ _ _ hrun).trans _ _ _ (kept_errors t _)
    · exact hspan.trans _ _ _ hrun
  · next error t heq =>
    rw [heq] at hrun
    exact (hspan.trans _ _ _ hrun).trans _ _ _ (kept_recordError t span error)

/-! ### Assignments -/

/-- `.` goes forward, and nothing else of what is kept changes. -/
structure Moved (e e' : Engine) : Prop where
  kept : Kept { e with dot := e'.dot } e'
  le : e.dot ≤ e'.dot
  lt : e.dot < 2 ^ 64 → e'.dot < 2 ^ 64

theorem Moved.of_kept (h : Kept e e') : Moved e e' := by
  refine ⟨⟨h.entries, h.outs, rfl, h.current, h.finalPass, h.errors⟩, h.dot.ge, ?_⟩
  rw [h.dot]
  exact id

theorem assignSymbol_kept (a : Assignment) (span : Span) (slot : ℕ) :
    Kept e (e.assignSymbol link a span slot) := by
  unfold assignSymbol
  split
  · exact .refl e
  · have hrun := evalSymbolAssignment_preserves Kept.refl Kept.trans (context_preserves link e) a e
    split
    · next value t heq =>
      rw [heq] at hrun
      exact ⟨hrun.entries, hrun.outs, hrun.dot, hrun.current, hrun.finalPass, hrun.errors⟩
    · next error t heq =>
      rw [heq] at hrun
      exact hrun.trans _ _ _ (kept_recordError t span error)

theorem assignDot_moved (link : Link) (hcurrent : e.current.isSome) (a : Assignment) (span : Span) :
    Moved e (e.assignDot link a span) := by
  have hnone : e.current.isNone = false := by
    rw [Option.isNone_eq_false_iff]
    exact hcurrent
  unfold assignDot
  simp only [hnone, Bool.false_eq_true, if_false]
  have hrun := evalDotAssignment_preserves Kept.refl Kept.trans (context_preserves link e) a e
  split
  · next next t heq =>
    rw [heq] at hrun
    have hnone' : t.current.isNone = false := by
      rw [hrun.current]
      exact hnone
    rw [hnone', if_neg Bool.false_ne_true]
    obtain ⟨hle, hlt⟩ := evalDotAssignment_le Engine.dot rfl hcurrent heq
    refine ⟨⟨hrun.entries, hrun.outs, rfl, hrun.current, hrun.finalPass, hrun.errors⟩, ?_, ?_⟩
    · exact hrun.dot ▸ hle
    · exact fun _ => hlt
  · next error t heq =>
    rw [heq] at hrun
    exact .of_kept (hrun.trans _ _ _ (kept_recordError t span error))

/-- **Inside an output section an assignment moves `.` forward, if at all.** -/
theorem assignment_moved (link : Link) (hcurrent : e.current.isSome) (a : Assignment)
    (span : Span) :
    Moved e (e.assignment link a span) := by
  obtain ⟨t, ht, hassign⟩ : ∃ t, Kept e t ∧ e.assignment link a span =
      if a.isDot then t.assignDot link a span
      else
        match link.symIndex a.target with
        | none => t
        | some slot => t.assignSymbol link a span slot := by
    refine ⟨_, ?_, rfl⟩
    split
    · exact ⟨rfl, rfl, rfl, rfl, rfl, List.prefix_rfl⟩
    · exact kept_span e span
  rw [hassign]
  split
  · have hmoved := assignDot_moved link (ht.current ▸ hcurrent) a span
    refine ⟨?_, ht.dot ▸ hmoved.le, ht.dot ▸ hmoved.lt⟩
    exact ⟨hmoved.kept.entries.trans ht.entries, hmoved.kept.outs.trans ht.outs, rfl,
      hmoved.kept.current.trans ht.current, hmoved.kept.finalPass.trans ht.finalPass,
      ht.errors.trans hmoved.kept.errors⟩
  · split
    · exact .of_kept ht
    · exact .of_kept (ht.trans _ _ _ (assignSymbol_kept a span _))

end Engine

end Qld.Elf.ScriptLayout
