import Qld.Elf.ScriptLayout.Engine
import Qld.Lib.BitRank

/-!
# The items of an output section

The part of `Engine::output` of `elf/script_layout/engine.rs` that lays out what stands between the
braces of an output section, with `pad` and `reserve_pool`.

* `Item`, `Step`, `buildProgram` — what an output section contains, and its steps;
* `Walk` — the variables of the loop; `Walk.step` — one step of it;
* `walk`, `outputItems` — the loop, and what is recorded of it.
-/

namespace Qld.Elf.ScriptLayout

open Qld.Lib Qld.Script

/-! ### Programs -/

/-- One statement inside an output section description.  Input descriptions are numbered. -/
inductive Item where
  | input (index : ℕ)
  | assign (assignment : Assignment) (span : Span)
  | data (size : DataSize) (expr : Expr) (span : Span)
  | fill (fill : Fill)
  | asciz (text : List UInt8)
  | linkerVersion
  | assert (assert : Assert) (span : Span)

def Item.index? : Item → Option ℕ
  | .input index => some index
  | _ => none

/-- An output section statement, as far as its items go.  The input descriptions are numbered from
0, with a `u16` that counts them. -/
structure OutputStmt where
  items : List Item
  fill : Option Fill
  numbered : items.filterMap Item.index? = List.range (items.filterMap Item.index?).length
  count_lt : (items.filterMap Item.index?).length < 2 ^ 16

/-- One step of an output section's program. -/
inductive Step where
  /-- Members `start..stop` of the output's entry list. -/
  | run (start stop : ℕ)
  | item (item : Item)

/-- How many members come before description `sub`: members are sorted by description. -/
def membersBefore (entries : List Entry) (sub : ℕ) : ℕ :=
  partitionPoint (fun e => decide (e.sub < sub)) entries

/-- The members of the descriptions from `subFrom` up to `subTo`. -/
def range (entries : List Entry) (subFrom subTo : ℕ) : ℕ × ℕ :=
  let start := membersBefore entries subFrom
  (start, max (membersBefore entries subTo) start)

/-- The step of an item. -/
def stepOf (entries : List Entry) : Item → Step
  | .input index => .run (range entries index (index + 1)).1 (range entries index (index + 1)).2
  | item => .item item

/-- The number behind that of an input description, and zero for another item. -/
def inputsOf : Item → ℕ
  | .input index => index + 1
  | _ => 0

/-- The steps of an output section: those of its items, and the members that no description
takes. -/
def buildProgram (items : List Item) (entries : List Entry) : List Step :=
  let inputs := (items.map inputsOf).foldl max 0
  let tail := range entries (min inputs (2 ^ 16 - 1)) U32_MAX
  items.map (stepOf entries) ++ if tail.1 < tail.2 then [.run tail.1 tail.2] else []

/-! ### Recording -/

namespace Engine

variable (e : Engine)

def modifyOut (index : ℕ) (f : OutState → OutState) : Engine :=
  { e with outs := e.outs.modify index f }

/-- Pads the section from `from_` to `.`. -/
def pad (index from_ : ℕ) (fill : Option ℕ) : Engine :=
  match fill with
  | none => e
  | some fill =>
    if e.finalPass = false ∨ e.dot ≤ from_ then e
    else
      e.modifyOut index fun out =>
        let padding := (wrappingSub from_ (e.vmaOf index), wrappingSub e.dot from_, fill)
        { out with fills := out.fills ++ [padding] }

def fillIndex (pattern : List UInt8) : ℕ × Engine :=
  match e.fillPatterns.findIdx? fun p => p = pattern with
  | some position => (if position ≤ U32_MAX then position else 0, e)
  | none =>
    (if e.fillPatterns.length ≤ U32_MAX then e.fillPatterns.length else 0,
      { e with fillPatterns := e.fillPatterns ++ [pattern] })

def fillValue (link : Link) (fill : Fill) (index : ℕ) : Option ℕ × Engine :=
  let previous := e.current
  let e := { e with current := some index }
  let (pattern, e) :=
    match run (fillPattern (e.context link) fill) e with
    | (.ok pattern, e) => (pattern, e)
    | (.error error, e) => ([], e.recordError e.span error)
  let e := { e with current := previous }
  if pattern.isEmpty then (none, e)
  else
    let (position, e) := e.fillIndex pattern
    (some position, e)

/-- Records where a member went. -/
def place (index i : ℕ) (member : Member) (offset : ℕ) : Engine :=
  let e := { e with
    entries := e.entries.modify index fun list =>
      list.modify i fun entry => { entry with offset := offset } }
  match member with
  | .input id => { e with memberOffset := e.memberOffset.set id offset }
  | .merge group => { e with mergeOffset := e.mergeOffset.set group offset }
  | .synthetic _ => e

end Engine

/-! ### The loop -/

/-- The output section whose items are laid out. -/
structure Section where
  index : ℕ
  vma : ℕ
  align : ℕ
  subalign : Option ℕ

/-- The alignment of a member, or that of `SUBALIGN`. -/
def Section.alignOf (sec : Section) (entry : Entry) : ℕ :=
  sec.subalign.elim entry.align (Nat.max · 1)

/-- The variables of the loop.  `wrapped` is not the source's: it tells that a sum passed the end
of the address space. -/
structure Walk where
  engine : Engine
  fill : Option ℕ
  pools : List (ℕ × ℕ × ℕ)
  taken : ℕ
  wrapped : Bool

namespace Walk

variable (link : Link) (sec : Section) (w : Walk)

/-- Moves `.` to `dot`, where `exact` is what it would be without wrapping. -/
def goto (dot exact_ : ℕ) : Walk :=
  { w with
    engine := { w.engine with dot := dot }
    wrapped := w.wrapped || decide (2 ^ 64 ≤ exact_) }

/-- Moves `.` behind `size` bytes. -/
def advance (size : ℕ) : Walk :=
  w.goto (wrappingAdd w.engine.dot size) (w.engine.dot + size)

def pad (from_ : ℕ) : Walk := { w with engine := w.engine.pad sec.index from_ w.fill }

/-- Reserves the next thunk pool at `.`, 4-byte aligned in the section. -/
def reservePool : Walk :=
  let pool := min w.pools.length U32_MAX
  let bytes := link.thunks.sizeOf sec.index pool
  let from_ := w.engine.dot
  let offset := wrappingSub from_ sec.vma
  let start := if bytes = 0 then offset else Script.alignUp offset 4
  let w := { w with pools := w.pools ++ [(pool, offset - w.taken, start)] }
  -- Both aligning and adding the address may wrap.
  let w := w.goto (wrappingAdd sec.vma start)
    (if bytes = 0 then sec.vma + start else max (offset + 3) (sec.vma + start))
  let w := (w.pad sec from_).advance bytes
  { w with taken := saturatingAdd w.taken (wrappingSub w.engine.dot from_) }

/-- Whether the content reached the place of the next pool. -/
def poolDue (lastRun : Option ℕ) : Bool :=
  lastRun.isSome && link.poolSpacing ≠ 0 && (w.pools.length + 1) * link.poolSpacing < 2 ^ 64 &&
    (w.pools.length + 1) * link.poolSpacing ≤ wrappingSub w.engine.dot sec.vma - w.taken

/-- Member `i` of the section. -/
def entry? (i : ℕ) : Option Entry := (w.engine.entries[sec.index]?).bind (·[i]?)

/-- Lays out member `i`. -/
def placeEntry (lastRun : Option ℕ) (i : ℕ) : Walk :=
  match w.entry? sec i with
  | none => w
  | some entry =>
    let w := if w.poolDue link sec lastRun then w.reservePool link sec else w
    let from_ := w.engine.dot
    let aligned := Script.alignUp from_ (sec.alignOf entry)
    let w := (w.goto aligned (from_ + (sec.alignOf entry - 1))).pad sec from_
    let offset := wrappingSub aligned sec.vma
    { w with engine := w.engine.place sec.index i entry.member offset }.advance entry.size

/-- Stores bytes at `.`. -/
def emit (bytes : List UInt8) : Walk :=
  let offset := wrappingSub w.engine.dot sec.vma
  let engine := w.engine.modifyOut sec.index fun out =>
    { out with
      hasData := true
      data := if w.engine.finalPass then out.data ++ [(offset, bytes)] else out.data }
  { w with engine := engine }.advance bytes.length

/-- The bytes of a number. -/
def dataBytes (endian : Endian) (value width : ℕ) : List UInt8 :=
  match endian with
  | .big => beBytes width value
  | .little => (beBytes width value).reverse

/-- An item that is no input description. -/
def item : Item → Walk
  | .input _ => w
  | .assign a span =>
    let from_ := w.engine.dot
    let engine := w.engine.assignment link a span
    if engine.dot ≠ from_ then
      { w with engine := engine.modifyOut sec.index fun out => { out with dotMoved := true } }.pad
        sec from_
    else { w with engine := engine }
  | .data size expr span =>
    let engine := { w.engine with span := span }
    match run (eval (engine.context link) expr) engine with
    | (.ok v, engine) =>
      { w with engine := engine }.emit sec
        (dataBytes link.endian (v.resolve engine.vmaOf) size.bytes)
    | (.error error, engine) =>
      { w with engine := engine.recordError span error }.emit sec
        (dataBytes link.endian 0 size.bytes)
  | .asciz text => w.emit sec (text ++ [0])
  | .linkerVersion => w.emit sec link.comment
  | .fill fill =>
    let r := w.engine.fillValue link fill sec.index
    { w with fill := r.1, engine := r.2 }
  | .assert a span => { w with engine := w.engine.assert link a span }

/-- One step of the program, with its number. -/
def step (lastRun : Option ℕ) (s : Step × ℕ) : Walk :=
  match s.1 with
  | .run start stop =>
    let w := (List.range' start (stop - start)).foldl (fun w i => w.placeEntry link sec lastRun i) w
    if lastRun = some s.2 then w.reservePool link sec else w
  | .item i => w.item link sec i

end Walk

/-- The position of the last step that meets a condition. -/
def rposition (program : List Step) (accepts : Step → Bool) : Option ℕ :=
  ((program.zipIdx.filter fun s => accepts s.1).getLast?).map Prod.snd

/-- The run that a pool follows: the last one that places anything, or the last one. -/
def lastRun (pooled : Bool) (entries : List Entry) (program : List Step) : Option ℕ :=
  let isRun : Step → Bool
    | .run _ _ => true
    | .item _ => false
  let sized : Step → Bool
    | .run start stop => ((entries.drop start).take (stop - start)).any fun e => e.size ≠ 0
    | .item _ => false
  if pooled then
    (rposition program sized).or (if entries.isEmpty then none else rposition program isRun)
  else none

namespace Engine

variable (link : Link) (e : Engine) (sec : Section) (stmt : OutputStmt)

/-- The variables before the first item. -/
def start : Walk :=
  let (fill, e) :=
    match stmt.fill with
    | none => (none, e)
    | some fill => e.fillValue link fill sec.index
  let e := e.modifyOut sec.index fun out =>
    { out with vma := sec.vma, align := sec.align, fills := [], data := [], pools := [] }
  ⟨{ e with dot := sec.vma, current := some sec.index }, fill, [], 0, false⟩

/-- The variables behind the last item. -/
def walk : Walk :=
  let entries := e.entries.getD sec.index []
  let program := buildProgram stmt.items entries
  program.zipIdx.foldl (fun w s => w.step link sec (lastRun link.pooled entries program) s)
    (e.start link sec stmt)

/-- Lays out the items, and records the size and the pools. -/
def outputItems : Engine :=
  let w := e.walk link sec stmt
  let size := wrappingSub w.engine.dot sec.vma
  let e' := w.engine.modifyOut sec.index fun out => { out with size := size, pools := w.pools }
  { e' with current := e.current, dot := sec.vma }

end Engine

end Qld.Elf.ScriptLayout
