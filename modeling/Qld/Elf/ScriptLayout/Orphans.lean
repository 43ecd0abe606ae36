import Qld.Elf.ScriptLayout.Output

/-!
# Orphans

The orphan placer of `elf/script_layout/matching.rs`: what it records of the output sections from
the input sections that a script names, and where it puts those that no description matches.

* `matchRecords` — the records after the match loop;
* `findByFlags`, `insertPosition`, `notePosition` — where an output section goes;
* `place`, `append` — an orphan gets a statement of its own, or joins one of its name.

The vectors of the source have one element for each output; flags, presence, type and alignment of
an output are one `Record`.  Indices are numbers.  Which statements are enabled was decided before.
-/

namespace Qld.Elf.ScriptLayout.Orphans

open Qld.Lib Qld.Script

/-! ### Section flags -/

namespace Sec

def ALLOC : BitVec 32 := 1
def LOAD : BitVec 32 := 2
def READONLY : BitVec 32 := 4
def CODE : BitVec 32 := 8
def DATA : BitVec 32 := 16
def HAS_CONTENTS : BitVec 32 := 32
def THREAD_LOCAL : BitVec 32 := 64
def DEBUGGING : BitVec 32 := 128

end Sec

open Sec

def SHT_RELA : ℕ := 4
def SHT_NOTE : ℕ := 7
def SHT_NOBITS : ℕ := 8
def SHT_REL : ℕ := 9

/-- Whether some of the flags are set. -/
def has (flags mask : BitVec 32) : Bool := flags &&& mask != 0

/-- Whether two flag words agree on a mask. -/
def agree (f g mask : BitVec 32) : Bool := (f ^^^ g) &&& mask == 0

/-- Names of debug sections. -/
def isDebugName (name : List UInt8) : Bool :=
  (ascii ".debug").isPrefixOf name || (ascii ".zdebug").isPrefixOf name ||
    (ascii ".gnu.debuglto_").isPrefixOf name || name == ascii ".line" ||
    (ascii ".stab").isPrefixOf name

/-- The header of an input section. -/
structure Header where
  name : List UInt8
  shFlags : BitVec 64
  shType : ℕ
  shAddralign : ℕ

/-- The GNU section flags of an ELF section. -/
def gnuFlags (shFlags : BitVec 64) (shType : ℕ) (name : List UInt8) : BitVec 32 :=
  let alloc := shFlags &&& 0x2 != 0
  let load := alloc && shType != SHT_NOBITS
  (if shType != SHT_NOBITS then HAS_CONTENTS else 0) |||
    (if alloc then ALLOC else 0) ||| (if load then LOAD else 0) |||
    (if shFlags &&& 0x1 == 0 then READONLY else 0) |||
    (if shFlags &&& 0x4 != 0 then CODE else if load then DATA else 0) |||
    (if shFlags &&& 0x400 != 0 then THREAD_LOCAL else 0) |||
    (if isDebugName name || (ascii ".gnu.linkonce.wi.").isPrefixOf name then DEBUGGING else 0)

/-! ### What is recorded -/

/-- What an output section takes from an input section. -/
structure Member where
  flags : BitVec 32
  type : ℕ
  align : ℕ
  deriving DecidableEq, Repr

/-- The member that a matched section is. -/
def Header.member (h : Header) : Member :=
  ⟨gnuFlags h.shFlags h.shType h.name, h.shType, h.shAddralign⟩

/-- What is recorded about an output: its flags, whether it has input sections, the type of the
first, and the largest alignment. -/
structure Record where
  flags : BitVec 32
  hasInput : Bool
  type : Option ℕ
  align : ℕ
  deriving DecidableEq, Repr

/-- Before the match loop. -/
def Record.blank : Record := ⟨0, false, none, 1⟩

/-- What the match loop does with a section of the output. -/
def Record.note (r : Record) (m : Member) : Record where
  flags :=
    if r.hasInput then (r.flags ||| (m.flags &&& ~~~READONLY)) &&& (m.flags ||| ~~~READONLY)
    else m.flags
  hasInput := true
  type := r.type.or (some m.type)
  align := max r.align m.align

/-- An output section statement. -/
structure OutputStmt where
  name : List UInt8
  address : Option Expr
  items : List Item
  region : Option (List UInt8)
  loadRegion : Option (List UInt8)
  phdrs : List (List UInt8)

/-- Whether it is `/DISCARD/`. -/
def OutputStmt.isDiscard (stmt : OutputStmt) : Bool := stmt.name == ascii "/DISCARD/"

/-- Data commands, and the linker's version string. -/
def isData : Item → Bool
  | .data .. | .asciz _ | .linkerVersion => true
  | _ => false

/-- What makes a section without input sections. -/
def makesSection : Item → Bool
  | .data .. | .asciz _ | .linkerVersion | .assign .. | .fill _ => true
  | _ => false

/-- The flags an output with no input sections gets from its statement. -/
def statementFlags (stmt : OutputStmt) : BitVec 32 :=
  stmt.items.foldl (fun flags item =>
    if isData item then flags ||| (HAS_CONTENTS ||| ALLOC ||| LOAD ||| READONLY) else flags) 0

/-- What the statement itself adds to the record, without input sections. -/
def Record.finish (r : Record) (stmt : OutputStmt) : Record :=
  if r.hasInput then r
  else { r with
    flags := statementFlags stmt
    type := if stmt.items.any makesSection then some 0 else r.type }

/-- The records after the match loop, for the matched sections in order. -/
def matchRecords (stmts : List OutputStmt) (matched : List (ℕ × Member)) : List Record :=
  let records := matched.foldl (fun records s => records.modify s.1 fun r => r.note s.2)
    (stmts.map fun _ => Record.blank)
  records.zipWith Record.finish stmts

/-! ### The placer -/

/-- A top-level statement. -/
inductive Statement where
  | assign (assignment : Assignment)
  | assert
  | output (index : ℕ)

/-- Where a class of orphans goes. -/
inductive Hold where
  | text | rodata | tdata | data | bss | rel | interp | nonAlloc
  deriving DecidableEq, Repr

namespace Hold

/-- The output section that orphans of the class follow. -/
def name : Hold → Option (List UInt8)
  | text => some (ascii ".text")
  | rodata => some (ascii ".rodata")
  | tdata => some (ascii ".tdata")
  | data => some (ascii ".data")
  | bss => some (ascii ".bss")
  | rel => none
  | interp => some (ascii ".interp")
  | nonAlloc => some (ascii ".comment")

def flags : Hold → BitVec 32
  | text => HAS_CONTENTS ||| ALLOC ||| LOAD ||| READONLY ||| CODE
  | rodata | rel | interp => HAS_CONTENTS ||| ALLOC ||| LOAD ||| READONLY ||| DATA
  | tdata => HAS_CONTENTS ||| ALLOC ||| LOAD ||| DATA ||| THREAD_LOCAL
  | data => HAS_CONTENTS ||| ALLOC ||| LOAD ||| DATA
  | bss => ALLOC
  | nonAlloc => HAS_CONTENTS

end Hold

def holdFlags (hold : Hold) (flags : BitVec 32) : BitVec 32 :=
  match hold with
  | .rel | .nonAlloc => hold.flags
  | _ => flags

/-- An orphan waiting for placement. -/
structure Orphan where
  name : List UInt8
  shType : ℕ
  flags : BitVec 32
  align : ℕ
  /-- A linker-generated section that may turn out empty. -/
  tentative : Bool
  /-- Always a statement of its own. -/
  special : Bool
  aligned : 1 ≤ align

/-- The member that a placed orphan is. -/
def Orphan.member (orphan : Orphan) : Member := ⟨orphan.flags, orphan.shType, orphan.align⟩

structure Placer where
  /-- The output section statements of the script. -/
  outputs : List OutputStmt
  statements : List Statement
  /-- The outputs of `statements` by name. -/
  byName : List UInt8 → List ℕ
  orphans : List OutputStmt
  orphanNames : List (List UInt8)
  records : List Record
  enabled : List Bool
  /-- The last statement created for each class. -/
  last : Hold → Option ℕ
  /-- Orphans added to existing statements get this `sub`. -/
  appendedSub : List ℕ
  executable : Bool
  relocatable : Bool
  firstOrphanNote : Option ℕ

namespace Placer

variable (p : Placer)

def stmt (index : ℕ) : Option OutputStmt :=
  if index < p.outputs.length then p.outputs[index]? else p.orphans[index - p.outputs.length]?

def name (index : ℕ) : List UInt8 := (p.stmt index).elim [] OutputStmt.name

def isEnabled (index : ℕ) : Bool := p.enabled.getD index false

def flagsOf (index : ℕ) : BitVec 32 := (p.records[index]?).elim 0 Record.flags

def hasInput (index : ℕ) : Bool := (p.records[index]?).elim false Record.hasInput

def typeOf (index : ℕ) : Option ℕ := (p.records[index]?).bind Record.type

def alignOf (index : ℕ) : ℕ := (p.records[index]?).elim 1 Record.align

/-- The first enabled output statement of a name. -/
def find (name : List UInt8) : Option ℕ :=
  p.statements.findSome? fun
    | .output i => if p.isEnabled i && p.name i == name then some i else none
    | _ => none

def positionOf (output : ℕ) : Option ℕ :=
  p.statements.findIdx? fun
    | .output i => i == output
    | _ => false

/-- An output that a new one may follow. -/
structure Candidate where
  index : ℕ
  flags : BitVec 32
  type : Option ℕ

/-- The last candidate that a loop accepts. -/
def lastOf (candidates : List Candidate) (accepts : Candidate → Bool) : Option ℕ :=
  candidates.foldl (fun found c => if accepts c then some c.index else found) none

/-- The loop for thread-local orphans. -/
def threadLocalLoop (flags : BitVec 32) : List Candidate → Bool → Option ℕ → Option ℕ
  | [], _, found => found
  | c :: rest, seen, found =>
    if agree c.flags (flags ||| LOAD ||| HAS_CONTENTS) (THREAD_LOCAL ||| ALLOC) then
      if !has c.flags LOAD && has flags LOAD then found
      else threadLocalLoop flags rest true (some c.index)
    else if seen then found
    else if agree c.flags (flags ||| LOAD ||| HAS_CONTENTS) (HAS_CONTENTS ||| ALLOC ||| LOAD) then
      threadLocalLoop flags rest seen (some c.index)
    else threadLocalLoop flags rest seen found

/-- `lang_output_section_find_by_flags`, with or without section types. -/
def findByFlagsTyped (flags : BitVec 32) (shType : Option ℕ) : Option ℕ :=
  let candidates := p.statements.filterMap fun
    | .output i =>
      if p.isEnabled i && (p.stmt i).any fun o => !o.isDiscard then
        some ⟨i, p.flagsOf i, p.typeOf i⟩
      else none
    | _ => none
  let typeOk (t : Option ℕ) : Bool :=
    match shType, t with
    | some want, some have_ => want == have_
    | _, _ => true
  let typed (mask : BitVec 32) := lastOf candidates fun c => typeOk c.type && agree c.flags flags mask
  match typed (HAS_CONTENTS ||| ALLOC ||| LOAD ||| READONLY ||| CODE ||| THREAD_LOCAL) with
  | some found => some found
  | none =>
    if has flags CODE && has flags ALLOC then
      typed (HAS_CONTENTS ||| ALLOC ||| LOAD ||| CODE ||| THREAD_LOCAL)
    else if has flags READONLY && has flags ALLOC then
      typed (HAS_CONTENTS ||| ALLOC ||| LOAD ||| READONLY)
    else if has flags THREAD_LOCAL && has flags ALLOC then
      threadLocalLoop flags candidates false none
    else if has flags HAS_CONTENTS && has flags ALLOC then
      typed (HAS_CONTENTS ||| ALLOC ||| LOAD ||| THREAD_LOCAL)
    else if has flags ALLOC then typed ALLOC
    else lastOf candidates fun c => agree c.flags flags DEBUGGING

def findByFlags (flags : BitVec 32) (shType : ℕ) : Option ℕ :=
  (p.findByFlagsTyped flags (some shType)).or (p.findByFlagsTyped flags none)

/-- The loop over the statements after an output. -/
def insertLoop (length : ℕ) : List Statement → ℕ → Option ℕ → ℕ
  | [], _, _ => length
  | .assign a :: rest, position, assign =>
    insertLoop length rest (position + 1)
      (if assign.isNone && a.isDot then some position else assign)
  | .assert :: rest, position, assign => insertLoop length rest (position + 1) assign
  | .output next :: _, position, assign =>
    match assign with
    | some at_ => if !p.hasInput next || has (p.flagsOf next) ALLOC then at_ else position
    | none => position

/-- `insert_os_after`: where a new statement goes after an output. -/
def insertPosition (after : ℕ) : ℕ :=
  match p.positionOf after with
  | none => p.statements.length
  | some start =>
    p.insertLoop p.statements.length (p.statements.drop (start + 1)) (start + 1) none

def isNote (output : ℕ) : Bool :=
  p.hasInput output && p.typeOf output == some SHT_NOTE && has (p.flagsOf output) LOAD

/-- The outputs with input sections, and their positions. -/
def presentOutputs : List (ℕ × ℕ) :=
  p.statements.zipIdx.filterMap fun s =>
    match s.1 with
    | .output i => if p.hasInput i then some (s.2, i) else none
    | _ => none

/-- The loop over the first run of notes: the first, and the last that is aligned as much. -/
def noteLoop (align : ℕ) : List (ℕ × ℕ) → Option ℕ → Option ℕ → Option ℕ × Option ℕ
  | [], after, first => (after, first)
  | (_, output) :: rest, after, first =>
    if p.isNote output then
      noteLoop align rest (if p.alignOf output ≥ align then some output else after)
        (first.or (some output))
    else if first.isSome then (after, first)
    else noteLoop align rest after first

/-- Notes are kept together and sorted by alignment; other orphans are not placed among them.  The
placer remembers the first note. -/
def notePosition (orphan : Orphan) (at_ : ℕ) : Placer × ℕ :=
  if orphan.shType = SHT_NOTE then
    let (after, first) := p.noteLoop orphan.align p.presentOutputs none none
    ({ p with firstOrphanNote := first },
      match after, first with
      | some output, _ => p.insertPosition output
      | none, some first => (p.positionOf first).getD at_
      | none, none => at_)
  else if p.firstOrphanNote.isNone then (p, at_)
  else
    match p.presentOutputs.find? fun o => o.1 ≥ at_ with
    | none => (p, at_)
    | some (_, next) =>
      let others := (p.presentOutputs.dropWhile fun o => o.2 != next).filter fun o => o.2 != next
      let after := others.foldl (fun after o => if p.isNote o.2 then o.2 else after) next
      (p, p.insertPosition after)

def findRel (rela : Bool) : Option ℕ :=
  p.statements.foldl (fun found s =>
    match s with
    | .output i =>
      if p.isEnabled i && (ascii (if rela then ".rela" else ".rel")).isPrefixOf (p.name i) &&
          (rela || !(ascii ".rela").isPrefixOf (p.name i)) then some i
      else found
    | _ => found) none

/-- The orphan joins an output: its new record, and the output and `sub` of the orphan. -/
def append (output : ℕ) (flags : BitVec 32) (tentative : Bool) : Placer × ℕ × ℕ :=
  let sub := p.appendedSub.getD output 0
  if tentative then (p, output, sub)
  else
    ({ p with
        records := p.records.modify output fun r =>
          { r with flags := r.flags ||| flags, hasInput := true } },
      output, sub)

/-- Where an orphan of these flags and this type belongs. -/
def holdOf (flags : BitVec 32) (shType : ℕ) : Option Hold :=
  if !has flags (ALLOC ||| DEBUGGING) then some .nonAlloc
  else if !has flags ALLOC then none
  else if has flags LOAD && shType == SHT_NOTE then
    if (p.find (ascii ".interp")).isSome then some .interp
    else if (p.find (ascii ".rodata")).isSome then some .rodata
    else some .text
  else if !has flags (LOAD ||| HAS_CONTENTS ||| THREAD_LOCAL) then some .bss
  else if has flags THREAD_LOCAL then some .tdata
  else if !has flags READONLY then some .data
  else if has flags LOAD && (shType == SHT_RELA || shType == SHT_REL) then some .rel
  else if !has flags CODE then some .rodata
  else some .text

/-- The name an orphan is placed under. -/
def placedName (orphan : Orphan) : List UInt8 :=
  if !p.relocatable && has orphan.flags ALLOC &&
      (orphan.shType == SHT_RELA || orphan.shType == SHT_REL) then
    if orphan.shType = SHT_RELA then ascii ".rela.dyn" else ascii ".rel.dyn"
  else orphan.name

/-- The enabled outputs of the name, in statement order. -/
def sameName (orphan : Orphan) : List ℕ :=
  let same := if orphan.special then [] else (p.byName (p.placedName orphan)).filter p.isEnabled
  if same.length > 1 then
    same.mergeSort fun a b =>
      match p.positionOf a, p.positionOf b with
      | none, _ => true
      | some _, none => false
      | some a, some b => a ≤ b
  else same

/-- The existing output that an orphan joins, if there is one. -/
def joined (orphan : Orphan) : Option ℕ :=
  ((p.sameName orphan).find? fun output =>
      !p.hasInput output || agree (p.flagsOf output) orphan.flags (LOAD ||| ALLOC)).or
    (if p.executable && (ascii ".gnu.warning.").isPrefixOf orphan.name then p.find (ascii ".text")
    else none)

/-- The position of the orphan's class. -/
def holdPosition (orphan : Orphan) : Option Hold → ℕ
  | none => p.statements.length
  | some hold =>
    match p.last hold with
    | some previous => (p.positionOf previous).elim p.statements.length (· + 1)
    | none =>
      let anchor := ((hold.name.bind p.find).or
          (if hold = .rel then p.findRel (orphan.shType == SHT_RELA) else none)).or
        (p.findByFlags (holdFlags hold orphan.flags) orphan.shType)
      match anchor with
      | some anchor => p.insertPosition anchor
      | none => p.statements.length

/-- The output before a position. -/
def anchorBefore (at_ : ℕ) : Option ℕ :=
  (p.statements.take at_).reverse.findSome? fun
    | .output i => some i
    | _ => none

/-- Names for `.rela.dyn` and `.rel.dyn` are the linker's own. -/
def nameStaticOr (original chosen : List UInt8) : List UInt8 :=
  if chosen = ascii ".rela.dyn" ∨ chosen = ascii ".rel.dyn" then chosen else original

/-- The statement of a new output section: region and program headers follow the anchor. -/
def orphanStmt (orphan : Orphan) (hold : Option Hold) (at_ : ℕ) : OutputStmt :=
  let alloc := has orphan.flags (ALLOC ||| LOAD)
  let anchor :=
    if alloc && hold.isSome then (p.anchorBefore at_).bind p.stmt else none
  { name := p.placedName orphan
    address := if alloc then none else some (.number 0)
    items := []
    region := anchor.bind OutputStmt.region
    loadRegion := anchor.bind OutputStmt.loadRegion
    phdrs := anchor.elim [] OutputStmt.phdrs }

/-- The orphan gets a statement of its own. -/
def create (orphan : Orphan) : Placer × ℕ × ℕ :=
  let hold := p.holdOf orphan.flags orphan.shType
  let at_ := p.holdPosition orphan hold
  let (q, at_) :=
    if hold.isSome && has orphan.flags LOAD && !orphan.tentative then p.notePosition orphan at_
    else (p, at_)
  let stmt := q.orphanStmt orphan hold at_
  let index := q.outputs.length + q.orphans.length
  ({ q with
      orphans := q.orphans ++ [stmt]
      orphanNames := q.orphanNames ++ [nameStaticOr orphan.name stmt.name]
      records := q.records ++
        [{ flags := if orphan.tentative then 0 else orphan.flags
           hasInput := !orphan.tentative
           type := if orphan.tentative then none else some orphan.shType
           align := orphan.align }]
      enabled := q.enabled ++ [true]
      appendedSub := q.appendedSub ++ [0]
      statements := q.statements.insertIdx (min at_ q.statements.length) (.output index)
      byName := fun name => if name = stmt.name then q.byName name ++ [index] else q.byName name
      last := fun h => if hold = some h then some index else q.last h },
    index, 0)

/-- Places one orphan; returns its output and `sub`. -/
def place (orphan : Orphan) : Placer × ℕ × ℕ :=
  match p.joined orphan with
  | some output => p.append output orphan.flags orphan.tentative
  | none => p.create orphan

end Placer

/-! ### Runs -/

/-- What a script brings to the placement: its statements and outputs, and which are enabled. -/
structure LayoutScript where
  statements : List Statement
  outputs : List OutputStmt
  enabled : List Bool
  sized : enabled.length = outputs.length

/-- The placer after the match loop, and the members of the outputs so far. -/
structure State where
  placer : Placer
  members : List (ℕ × Member)

/-- The sections that descriptions match, in input order. -/
abbrev LayoutScript.Matched (script : LayoutScript) := List (Fin script.outputs.length × Header)

/-- The state before the first orphan. -/
def LayoutScript.start (script : LayoutScript) (matched : script.Matched)
    (executable relocatable : Bool) : State :=
  let members := matched.map fun s => (s.1.val, s.2.member)
  { placer :=
      { outputs := script.outputs
        statements := script.statements
        byName := fun name => script.statements.filterMap fun
          | .output i => if (script.outputs[i]?).any fun o => o.name == name then some i else none
          | _ => none
        orphans := []
        orphanNames := []
        records := matchRecords script.outputs members
        enabled := script.enabled
        last := fun _ => none
        appendedSub := script.outputs.map fun o =>
          min (o.items.filterMap Item.index?).length (2 ^ 16 - 1)
        executable := executable
        relocatable := relocatable
        firstOrphanNote := none }
    members := members }

/-- One orphan is placed, and is then a member of its output. -/
def State.step (s : State) (orphan : Orphan) : State :=
  let placed := s.placer.place orphan
  ⟨placed.1, s.members ++ [(placed.2.1, orphan.member)]⟩

/-- The orphans are placed one after the other. -/
def State.run (s : State) (orphans : List Orphan) : State := orphans.foldl State.step s

end Qld.Elf.ScriptLayout.Orphans
