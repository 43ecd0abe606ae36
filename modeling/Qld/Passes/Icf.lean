import Mathlib.Data.List.SplitBy
import Mathlib.Data.Setoid.Basic
import Qld.Passes.Csr

/-!
# Identical code folding

The model of `passes/icf.rs`.  Sections are folded into the lowest-numbered member of their
class in the coarsest partition in which members of one class cannot be told apart.

* `IcfInput` — the validated input; `IcfInput.new` is the check, and its result carries what
  was checked;
* `Folder` operations: `constantHash`, `compareConstant`, `variableHash`, `compareVariable`,
  `splitRun`, `splitClass`, `commit`, under the source's names;
* `foldIdentical` — round 0 by the constant parts, then refinement rounds until a round
  splits no class.  The `while` loop runs on fuel, and `none` means that it ran out.

The hash functions are parameters: any function of the sequence of words that is written to
the hasher.  The working list is cut at its start flags by `List.splitBy`, which is
`par_chunk_by_mut`; the unstable sorts are by keys that no two slots share, so the stable
`List.mergeSort` gives the same list.
-/

namespace Qld.Passes.Icf

/-- Which sections ICF may fold. -/
inductive IcfMode where
  | all
  | safe
  deriving DecidableEq, Repr

/-- One input section, as ICF sees it. -/
structure IcfSection where
  contents : List UInt8
  key : ℕ
  foldable : Bool
  addressSignificant : Bool
  deriving DecidableEq, Repr

/-- What a relocation points at. -/
inductive IcfTarget where
  | section (section_ offset : ℕ)
  | symbol (symbol : ℕ)
  | value (value : ℕ)
  deriving DecidableEq, Repr

/-- One relocation of a section, as ICF sees it. -/
structure IcfReloc where
  offset : ℕ
  kind : ℕ
  addend : ℤ
  target : IcfTarget
  deriving DecidableEq, Repr

/-- The section a relocation of the input targets, if it is one that does not exist. -/
def badTarget (len : ℕ) (reloc : IcfReloc) : Option ℕ :=
  match reloc.target with
  | .section s _ => if s ≥ len then some s else none
  | _ => none

/-- Validated ICF input: sections plus their relocations. -/
structure IcfInput where
  sections : List IcfSection
  relocTable : Csr IcfReloc
  len_lt : sections.length < 2 ^ 32
  rows_eq : relocTable.rows = sections.length
  inRange : ∀ reloc ∈ relocTable.values, badTarget sections.length reloc = none

namespace IcfInput

/-- Combines the sections with a relocation table, after checking that they fit. -/
def new (sections : List IcfSection) (relocs : Csr IcfReloc) : Except InputError IcfInput :=
  if hlen : sections.length < 2 ^ 32 then
    if hrows : relocs.rows = sections.length then
      match hbad : relocs.values.findSome? (badTarget sections.length) with
      | some s => .error (.outOfRange "relocation target section" s sections.length)
      | none => .ok ⟨sections, relocs, hlen, hrows, List.findSome?_eq_none_iff.mp hbad⟩
    else .error (.rowCount sections.length relocs.rows)
  else .error (.tooLarge "section count")

def len (input : IcfInput) : ℕ := input.sections.length

/-- The relocations of a section. -/
def relocs (input : IcfInput) (id : ℕ) : List IcfReloc := input.relocTable.row id

/-- The section `id`; one that does not exist reads as an empty, unfoldable section. -/
def sectionAt (input : IcfInput) (id : ℕ) : IcfSection :=
  input.sections.getD id ⟨[], 0, false, false⟩

end IcfInput

/-- A working-set entry: one eligible section. -/
structure Slot where
  hash : UInt64
  id : ℕ
  /-- First slot of its class (or, transiently, of its hash run). -/
  start : Bool
  /-- Its class is final; remove it from the working set. -/
  done : Bool
  deriving DecidableEq, Repr

/-- A word written to the hasher. -/
inductive HashWrite where
  | u8 (x : ℕ)
  | u32 (x : ℕ)
  | u64 (x : ℕ)
  | i64 (x : ℤ)
  | usize (x : ℕ)
  | bytes (x : List UInt8)
  deriving DecidableEq, Repr

/-- A hash function: what it returns for a sequence of writes. -/
abbrev HashFn := List HashWrite → UInt64

def targetShape : IcfTarget → ℕ × ℕ
  | .section _ offset => (0, offset)
  | .symbol symbol => (1, symbol)
  | .value value => (2, value)

/-! ### The folder -/

section Folder

variable (input : IcfInput)

def constantHash (h : HashFn) (id : ℕ) : UInt64 :=
  let s := input.sectionAt id
  let relocs := input.relocs id
  h ([.u64 s.key, .usize s.contents.length, .bytes s.contents, .usize relocs.length] ++
    relocs.flatMap fun reloc =>
      let (tag, value) := targetShape reloc.target
      [.u64 reloc.offset, .u32 reloc.kind, .i64 reloc.addend, .u8 tag, .u64 value])

/-- Compares the constant fields of two relocations. -/
def compareReloc (a b : IcfReloc) : Ordering :=
  (compare a.offset b.offset).then <| (compare a.kind b.kind).then <|
    (compare a.addend b.addend).then <|
      (compare (targetShape a.target).1 (targetShape b.target).1).then
        (compare (targetShape a.target).2 (targetShape b.target).2)

def compareConstant (a b : ℕ) : Ordering :=
  let (sa, sb) := (input.sectionAt a, input.sectionAt b)
  let (ra, rb) := (input.relocs a, input.relocs b)
  (compare sa.key sb.key).then <| (compare sa.contents.length sb.contents.length).then <|
    (compare ra.length rb.length).then <| (compare sa.contents sb.contents).then
      (List.compareLex compareReloc ra rb)

variable (classOf : ℕ → ℕ)

/-- The class of a relocation's target section; zero for any other target. -/
def targetClass (reloc : IcfReloc) : ℕ :=
  match reloc.target with
  | .section s _ => classOf s
  | _ => 0

/-- The word `variable_hash` writes for a relocation, if its target is in a section. -/
def targetWord (reloc : IcfReloc) : Option HashWrite :=
  match reloc.target with
  | .section s _ => some (.u32 (classOf s))
  | _ => none

def variableHash (h : HashFn) (id : ℕ) : UInt64 :=
  h ((input.relocs id).filterMap (targetWord classOf))

/-- Compares target classes. -/
def compareVariable (a b : ℕ) : Ordering :=
  List.compareLex compare ((input.relocs a).map (targetClass classOf))
    ((input.relocs b).map (targetClass classOf))

def hasSectionTargets (id : ℕ) : Bool :=
  (input.relocs id).any fun reloc =>
    match reloc.target with
    | .section _ _ => true
    | _ => false

end Folder

/-- Sets `start` on each slot that compares unequal to the one before it. -/
def markStarts (compare : ℕ → ℕ → Ordering) (prev : Slot) : List Slot → List Slot
  | [] => []
  | slot :: rest =>
    { slot with start := compare prev.id slot.id != .eq } :: markStarts compare slot rest

/-- Splits one run of equal-hash slots, sorted by id, into classes by exact comparison. -/
def splitRun (compare : ℕ → ℕ → Ordering) (run : List Slot) : List Slot :=
  match run.map fun slot => { slot with start := false } with
  | [] => []
  | first :: rest =>
    if rest.all fun slot => compare first.id slot.id == .eq then
      { first with start := true } :: rest
    else
      match (first :: rest).mergeSort fun x y =>
        ((compare x.id y.id).then (Ord.compare x.id y.id)).isLE with
      | [] => []
      | first :: rest => { first with start := true } :: markStarts compare first rest

/-- The order of `sort_unstable_by_key(|slot| (slot.hash, slot.id))`. -/
def hashOrder (x y : Slot) : Bool := ((compare x.hash y.hash).then (compare x.id y.id)).isLE

/-- Splits each run of equal hashes. -/
def splitHashRuns (compare : ℕ → ℕ → Ordering) : List Slot → List Slot
  | [] => []
  | slot :: rest =>
    let run := (slot :: rest).takeWhile fun x => x.hash == slot.hash
    splitRun compare run ++ splitHashRuns compare ((slot :: rest).drop run.length)
termination_by l => l.length
decreasing_by
  simp only [List.length_drop, List.length_cons, List.takeWhile_cons, beq_self_eq_true, if_true]
  omega

/-- Sorts a class by hash and id and splits it by hash runs and exact comparison. -/
def splitClass (compare : ℕ → ℕ → Ordering) (cls : List Slot) : List Slot :=
  splitHashRuns compare (cls.mergeSort hashOrder)

/-- `par_chunk_by_mut(|_, next| !next.start)`. -/
def chunks (work : List Slot) : List (List Slot) := work.splitBy fun _ next => !next.start

/-- Writes a class's id to its members. -/
def storeClass (classOf : ℕ → ℕ) (cls : List Slot) : ℕ → ℕ :=
  match cls with
  | [] => classOf
  | representative :: _ =>
    cls.foldl (fun classOf slot => Function.update classOf slot.id representative.id) classOf

/-- Marks the slots of a final class done. -/
def markDone (input : IcfInput) (cls : List Slot) : List Slot :=
  match cls with
  | [] => []
  | representative :: _ =>
    if cls.length = 1 || !hasSectionTargets input representative.id then
      cls.map fun slot => { slot with done := true }
    else cls

/-- The class ids and the working set. -/
structure Folding where
  classOf : ℕ → ℕ
  work : List Slot

/-- Writes each class's id to its members, marks final classes done, and removes them from
the working set. -/
def commit (input : IcfInput) (classOf : ℕ → ℕ) (work : List Slot) : Folding where
  classOf := (chunks work).foldl storeClass classOf
  work := ((chunks work).flatMap (markDone input)).filter fun slot => !slot.done

def countClasses (work : List Slot) : ℕ := work.countP (·.start)

/-- Whether a section takes part in folding. -/
def eligible (input : IcfInput) (mode : IcfMode) (id : ℕ) : Bool :=
  (input.sectionAt id).foldable && (mode == .all || !(input.sectionAt id).addressSignificant)

/-- Sets `start` on the first slot of each hash run. -/
def markHashRuns (previous : Option UInt64) : List Slot → List Slot
  | [] => []
  | slot :: rest =>
    { slot with start := previous != some slot.hash } :: markHashRuns (some slot.hash) rest

/-- Round 0: classes of equal constant parts. -/
def roundZero (h : HashFn) (input : IcfInput) (mode : IcfMode) : Folding :=
  let work := ((List.range input.len).filter (eligible input mode)).map fun id =>
    { hash := constantHash input h id, id := id, start := false, done := false : Slot }
  let work := markHashRuns none (work.mergeSort hashOrder)
  commit input id ((chunks work).flatMap (splitRun (compareConstant input)))

/-- The slots of one refinement round, split. -/
def splitWork (h : HashFn) (input : IcfInput) (s : Folding) : List Slot :=
  let work := s.work.map fun slot => { slot with hash := variableHash input s.classOf h slot.id }
  (chunks work).flatMap (splitClass (compareVariable input s.classOf))

/-- The refinement rounds: the state at the end, and the number of rounds. -/
def refine (h : HashFn) (input : IcfInput) : ℕ → Folding → ℕ → Option (Folding × ℕ)
  | 0, _, _ => none
  | fuel + 1, s, rounds =>
    if s.work.isEmpty then some (s, rounds)
    else
      let before := countClasses s.work
      let work := splitWork h input s
      let after := countClasses work
      let s' := commit input s.classOf work
      if after = before then some (s', rounds + 1) else refine h input fuel s' (rounds + 1)

/-- The outcome of identical code folding. -/
structure IcfResult where
  foldInto : List ℕ
  rounds : ℕ
  deriving DecidableEq, Repr

/-- Runs identical code folding, with one hash function for the constant parts and one for
the target classes. -/
def foldIdentical (constant variable_ : HashFn) (input : IcfInput) (mode : IcfMode)
    (fuel : ℕ) : Option IcfResult :=
  (refine variable_ input fuel (roundZero constant input mode) 1).map fun (s, rounds) =>
    { foldInto := (List.range input.len).map s.classOf, rounds := rounds }

end Qld.Passes.Icf
