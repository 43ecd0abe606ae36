import Qld.Lib.SortedGroups
import Qld.Symbols.InternRuns

/-!
# The resolution driver

The model of `symbols/resolve.rs` without a load hook: files are made live in rounds, each round
interns the names of its new files, offers their definitions to the table, marks their references,
and extracts the archive members that a reference now needs.

* `ResolveFile`, `SymbolUse` — a file as the driver sees it;
* `repeatedLazyFiles`, `internRound` — the names of a round;
* `entrySteps`, `markStep`, `insertAndMark` — offers and marks; their order is a parameter, as
  they run on many threads;
* `chooseMember`, `membersOf` — the members to extract;
* `resolveRound`, `resolveRounds`, `resolveSymbols` — a round, the loop, and the whole driver;
  the loop returns what every round left, and its fuel bounds the rounds;
* `collectUndefined`, `collectDuplicates` — the reports.

Names of a lazy file are slices of the archive's symbol index: the driver compares their addresses
to find an archive that is named twice, so they are references into a memory here.
-/

namespace Qld.Symbols

open Qld.Lib SymbolTable

/-- A name as slices of memory: its bytes and its version, each an address and a length. -/
structure NameRef where
  start : ℕ
  len : ℕ
  version : Option (ℕ × ℕ)
  deriving DecidableEq, Repr

/-- The bytes of a slice. -/
def readSlice (memory : ℕ → UInt8) (start len : ℕ) : List UInt8 :=
  (List.range len).map fun i => memory (start + i)

def NameRef.read (memory : ℕ → UInt8) (ref : NameRef) : SymbolName where
  bytes := readSlice memory ref.start ref.len
  version := ref.version.map fun slice => readSlice memory slice.1 slice.2

/-- How one entry of a live file's symbol list takes part in resolution. -/
inductive SymbolUse where
  | reference (weak : Bool)
  | definition (kind : DefinitionKind) (aux : UInt64)
  | ignore
  deriving DecidableEq, Repr

/-- Why resolution fails: a limit, or an error of a file or of the hook. -/
inductive ResolveError where
  | table (error : Error)
  | input (message : String)
  deriving DecidableEq, Repr

/-- An input file as the driver sees it. -/
structure ResolveFile where
  position : ℕ
  isLiveAtStart : Bool
  /-- The names a lazy file would define if extracted. -/
  lazyNames : List NameRef
  load : Except ResolveError Unit
  symbolNames : List SymbolName
  symbolUse : ℕ → SymbolUse

instance : Inhabited ResolveFile := ⟨⟨0, false, [], .ok (), [], fun _ => .ignore⟩⟩

/-- File `i` of the slice. -/
def fileAt (files : List ResolveFile) (i : ℕ) : ResolveFile := files.getD i default

/-- A backend hook into each round: it may change the files that became live, which it is given
by position. -/
structure RoundHook (σ : Type) where
  afterLoad : ℕ → σ → List (ℕ × ResolveFile) → Except ResolveError (σ × List ResolveFile)

/-- The unit type as a hook. -/
def noHook : RoundHook Unit := ⟨fun _ s files => .ok (s, files.map Prod.snd)⟩

/-! ### The names of a round -/

/-- Finds, for each lazy file, an earlier one of the same number of names whose first name is at
the same address. -/
def repeatCandidates (files : List ResolveFile) :
    List ℕ → List ((ℕ × ℕ) × ℕ) → List (Option ℕ)
  | [], _ => []
  | index :: lazy, first =>
    match (fileAt files index).lazyNames with
    | [] => none :: repeatCandidates files lazy first
    | head :: names =>
      let key := (names.length + 1, head.start)
      match first.lookup key with
      | some original =>
        (if (fileAt files original).position < (fileAt files index).position then some original
          else none) :: repeatCandidates files lazy first
      | none => none :: repeatCandidates files lazy ((key, index) :: first)

/-- For each of the lazy files, the earlier one whose lazy names are the very same, if any. -/
def repeatedLazyFiles (files : List ResolveFile) (lazy : List ℕ) : List (Option ℕ) :=
  List.zipWith (fun candidate index => candidate.filter fun original =>
    ((fileAt files original).lazyNames.zip (fileAt files index).lazyNames).all fun pair =>
      pair.1 == pair.2) (repeatCandidates files lazy []) lazy

section Driver

variable (hash : SymbolName → UInt64) (memory : ℕ → UInt8)

/-- The lazy names of a file. -/
def lazyNamesOf (file : ResolveFile) : List SymbolName := file.lazyNames.map (NameRef.read memory)

/-- A job for names, with its IDs still to be written. -/
def newJob (position : ℕ) (names : List SymbolName) : InternJob where
  position := position
  names := names
  ids := List.replicate names.length 0
  ids_length := List.length_replicate

/-- Interns the symbol names of the `load` files and the lazy names of the `lazy` files as one
batch; returns the IDs of both. -/
def internRound (sched : Schedule) (t : SymbolTable) (files : List ResolveFile)
    (load lazy : List ℕ) : SymbolTable × Except Error ((ℕ → List ℕ) × (ℕ → List ℕ)) :=
  let repeats := repeatedLazyFiles files lazy
  let interned := ((lazy.zip repeats).filter fun entry => entry.2.isNone).map Prod.fst
  let jobs := load.map (fun i => newJob (fileAt files i).position (fileAt files i).symbolNames) ++
    interned.map fun i => newJob (fileAt files i).position (lazyNamesOf memory (fileAt files i))
  match t.tryInternBatch hash sched jobs with
  | (t, .error e) => (t, .error e)
  | (t, .ok ids) =>
    let symbolIds := fun i => ((load.zip (ids.take load.length)).lookup i).getD []
    let internedIds := fun i => ((interned.zip (ids.drop load.length)).lookup i).getD []
    let lazyIds := fun i =>
      match ((lazy.zip repeats).lookup i).join with
      | some original => internedIds original
      | none => internedIds i
    (t, .ok (symbolIds, lazyIds))

/-! ### Offers and marks -/

/-- One file's symbols in a pass. -/
structure Work where
  file : ℕ
  ids : List ℕ
  lazy : Bool

/-- One entry of a file's symbols: the file, the index, the symbol ID. -/
structure Entry where
  file : ℕ
  symbol : ℕ
  id : ℕ
  lazy : Bool
  deriving DecidableEq, Repr

def workEntries (work : List Work) : List Entry :=
  work.flatMap fun w => w.ids.zipIdx.map fun id => ⟨w.file, id.2, id.1, w.lazy⟩

/-- The definition that an entry of `file` offers. -/
def offered (files : List ResolveFile) (file symbol : ℕ) (kind : DefinitionKind) (aux : UInt64) :
    Definition :=
  ⟨kind, file, min symbol U32_MAX, (fileAt files file).position, aux⟩

/-- What the threads do to the table: insert a candidate, look at the flags of a candidate that
may have won, or mark a reference. -/
inductive MarkStep where
  | insert (entry : Entry) (candidate : Definition)
  | check (entry : Entry) (candidate : Definition)
  | mark (id flags : ℕ)
  deriving DecidableEq, Repr

/-- The steps of one entry. -/
def entrySteps (files : List ResolveFile) (e : Entry) : List MarkStep :=
  if e.lazy then
    [.insert e (offered files e.file e.symbol .lazy 0),
      .check e (offered files e.file e.symbol .lazy 0)]
  else
    match (fileAt files e.file).symbolUse e.symbol with
    | .definition kind aux =>
      [.insert e (offered files e.file e.symbol kind aux),
        .check e (offered files e.file e.symbol kind aux)]
    | .reference false => [.mark e.id REFERENCED]
    | .reference true => [.mark e.id WEAK_REFERENCED]
    | .ignore => []

/-- The table, the entries whose candidate won when it was inserted, and the extraction
candidates. -/
structure MarkState where
  table : SymbolTable
  won : List Entry
  candidates : List ℕ

def markStep (resolver : Resolver) (s : MarkState) : MarkStep → MarkState
  | .insert e candidate =>
    let result := s.table.insertDefinition resolver e.id candidate
    { s with table := result.1, won := if result.2 then e :: s.won else s.won }
  | .check e candidate =>
    if e ∈ s.won ∧ resolver.extracts candidate = true ∧
        containsFlags (s.table.flagsOf e.id) REFERENCED = true then
      { s with candidates := e.id :: s.candidates }
    else s
  | .mark id flags =>
    let result := s.table.setFlags id flags
    if flags = REFERENCED ∧ containsFlags result.2 REFERENCED = false then
      { s with table := result.1, candidates := id :: s.candidates }
    else { s with table := result.1 }

/-- Inserts this round's lazy and live definitions and sets the reference flags of its live
files, the steps in the given order. -/
def insertAndMark (resolver : Resolver) (t : SymbolTable) (order : List MarkStep) : MarkState :=
  order.foldl (markStep resolver) ⟨t, [], []⟩

/-! ### Rounds -/

/-- The member that a candidate extracts. -/
def chooseMember (resolver : Resolver) (t : SymbolTable) (count : ℕ) (live : ℕ → Bool) (id : ℕ) :
    Option ℕ :=
  let current := t.definition id
  if !current.isDefined || !resolver.extracts current then none
  else if current.file < count && !live current.file then some current.file
  else none

/-- The members that the candidates extract, in index order. -/
def membersOf (resolver : Resolver) (t : SymbolTable) (count : ℕ) (live : ℕ → Bool)
    (candidates : List ℕ) : List ℕ :=
  dedupAdjacent ((candidates.filterMap (chooseMember resolver t count live)).insertionSort (· ≤ ·))

/-- File indices by position, then by index. -/
def byPosition (files : List ResolveFile) (indices : List ℕ) : List ℕ :=
  indices.insertionSort fun i j =>
    toLex ((fileAt files i).position, i) ≤ toLex ((fileAt files j).position, j)

/-- Loads files; the error of the lowest position and index is returned. -/
def loadFiles (files : List ResolveFile) (load : List ℕ) : Except ResolveError Unit :=
  ((byPosition files load).findSome? fun i =>
    match (fileAt files i).load with
    | .error e => some e
    | .ok _ => none).elim (.ok ()) .error

/-- Puts changed files back. -/
def replaceFiles (files : List ResolveFile) (changed : List (ℕ × ResolveFile)) :
    List ResolveFile :=
  files.zipIdx.map fun entry => (changed.lookup entry.2).getD entry.1

/-- How a run is scheduled, by round. -/
structure DriverSchedule where
  intern : ℕ → Schedule
  marks : ℕ → List MarkStep → List MarkStep
  marks_perm : ∀ round steps, (marks round steps).Perm steps

/-- What a round starts from. -/
structure DriverState (σ : Type) where
  hook : σ
  files : List ResolveFile
  table : SymbolTable
  live : ℕ → Bool
  symbolIds : ℕ → List ℕ
  /-- The files to load this round, and (first round only) the lazy files. -/
  load : List ℕ
  lazy : List ℕ

/-- What a round leaves. -/
structure RoundEnd (σ : Type) where
  hook : σ
  files : List ResolveFile
  table : SymbolTable
  live : ℕ → Bool
  symbolIds : ℕ → List ℕ
  /-- The members to extract, in index order. -/
  members : List ℕ

/-- The work of a round: the symbols of the new files, and the lazy names. -/
def roundWork (load lazy : List ℕ) (symbolIds lazyIds : ℕ → List ℕ) : List Work :=
  load.map (fun i => ⟨i, symbolIds i, false⟩) ++ lazy.map fun i => ⟨i, lazyIds i, true⟩

variable {σ : Type} (resolver : Resolver) (hook : RoundHook σ) (sched : DriverSchedule)

/-- One round. -/
def resolveRound (round : ℕ) (s : DriverState σ) : Except ResolveError (RoundEnd σ) :=
  match loadFiles s.files s.load with
  | .error e => .error e
  | .ok _ =>
    let order := byPosition s.files s.load
    match hook.afterLoad round s.hook (order.map fun i => (i, fileAt s.files i)) with
    | .error e => .error e
    | .ok (state, changed) =>
      let files := replaceFiles s.files (order.zip changed)
      let live := fun i => s.live i || decide (i ∈ s.load)
      match internRound hash memory (sched.intern round) s.table files s.load s.lazy with
      | (_, .error e) => .error (.table e)
      | (t, .ok (symbolIds, lazyIds)) =>
        let ids := fun i => if i ∈ s.load then symbolIds i else s.symbolIds i
        let steps := (workEntries (roundWork s.load s.lazy ids lazyIds)).flatMap (entrySteps files)
        let marked := insertAndMark resolver t (sched.marks round steps)
        .ok ⟨state, files, marked.table, live, ids,
          membersOf resolver marked.table files.length live marked.candidates⟩

/-- The state after a round that extracts members. -/
def RoundEnd.next (e : RoundEnd σ) : DriverState σ :=
  ⟨e.hook, e.files, e.table, e.live, e.symbolIds, e.members, []⟩

/-- The rounds until nothing is extracted; `none` if the fuel does not suffice. -/
def resolveRounds : ℕ → ℕ → DriverState σ → Option (Except ResolveError (List (RoundEnd σ)))
  | 0, _, _ => none
  | fuel + 1, round, s =>
    match resolveRound hash memory resolver hook sched round s with
    | .error e => some (.error e)
    | .ok last =>
      if last.members.isEmpty then some (.ok [last])
      else
        match resolveRounds fuel (round + 1) last.next with
        | none => none
        | some (.error e) => some (.error e)
        | some (.ok rounds) => some (.ok (last :: rounds))

/-! ### Reports -/

/-- Where a symbol is referenced. -/
structure SymbolReference where
  position : ℕ
  file : ℕ
  index : ℕ
  deriving DecidableEq, Repr

abbrev ReferenceKey := ℕ ×ₗ ℕ ×ₗ ℕ

def SymbolReference.key (reference : SymbolReference) : ReferenceKey :=
  toLex (reference.position, toLex (reference.file, reference.index))

structure UndefinedSymbol where
  symbol : ℕ
  name : SymbolName
  references : List SymbolReference
  deriving DecidableEq, Repr

/-- The key of `references[0]`. -/
def UndefinedSymbol.firstReference (u : UndefinedSymbol) : ReferenceKey :=
  (u.references.head?.map SymbolReference.key).getD (toLex (0, toLex (0, 0)))

structure DuplicateSymbol where
  symbol : ℕ
  name : SymbolName
  winner : Definition
  others : List Definition
  deriving DecidableEq, Repr

/-- The live files as work. -/
def liveWork (count : ℕ) (live : ℕ → Bool) (symbolIds : ℕ → List ℕ) : List Work :=
  ((List.range count).filter live).map fun i => ⟨i, symbolIds i, false⟩

/-- The reference of an entry, if it is a non-weak one to a symbol without a definition. -/
def undefinedReference (t : SymbolTable) (files : List ResolveFile) (e : Entry) :
    Option (ℕ × SymbolReference) :=
  if (fileAt files e.file).symbolUse e.symbol ≠ .reference false then none
  else if (t.definition e.id).kind ≠ .undefined ∧ (t.definition e.id).kind ≠ .lazy then none
  else some (e.id, ⟨(fileAt files e.file).position, e.file, min e.symbol U32_MAX⟩)

/-- Consecutive entries with one symbol. -/
def chunkById {α : Type} (l : List (ℕ × α)) : List (List (ℕ × α)) :=
  l.splitBy fun a b => a.1 == b.1

/-- The symbols referenced non-weakly by live files that ended up without a definition, ordered
by first reference. -/
def collectUndefined (t : SymbolTable) (files : List ResolveFile) (work : List Work) :
    List UndefinedSymbol :=
  let references := ((workEntries work).filterMap (undefinedReference t files)).insertionSort
    fun a b => toLex (a.1, a.2.key) ≤ toLex (b.1, b.2.key)
  let undefined := (chunkById references).filterMap fun group =>
    group.head?.map fun first =>
      (⟨first.1, t.names.getD first.1 ⟨[], none⟩, group.map Prod.snd⟩ : UndefinedSymbol)
  undefined.insertionSort fun a b =>
    toLex (a.firstReference, a.symbol) ≤ toLex (b.firstReference, b.symbol)

/-- The definition of an entry, if the resolver calls it a duplicate of the winner. -/
def duplicateDefinition (t : SymbolTable) (files : List ResolveFile) (e : Entry) :
    Option (ℕ × Definition) :=
  match (fileAt files e.file).symbolUse e.symbol with
  | .definition kind aux =>
    let definition := offered files e.file e.symbol kind aux
    let winner := t.definition e.id
    if kind = .undefined then none
    else if winner ≠ definition ∧ resolver.isDuplicate winner definition = true then
      some (e.id, definition)
    else none
  | _ => none

/-- The duplicate definitions, ordered by the winning definition. -/
def collectDuplicates (t : SymbolTable) (files : List ResolveFile) (work : List Work) :
    List DuplicateSymbol :=
  let losers := ((workEntries work).filterMap (duplicateDefinition resolver t files)).insertionSort
    fun a b => toLex (a.1, a.2.tieKey) ≤ toLex (b.1, b.2.tieKey)
  let duplicates := (chunkById losers).filterMap fun group =>
    group.head?.map fun first =>
      (⟨first.1, t.names.getD first.1 ⟨[], none⟩, t.definition first.1, group.map Prod.snd⟩ :
        DuplicateSymbol)
  duplicates.insertionSort fun a b =>
    toLex (a.winner.tieKey, a.symbol) ≤ toLex (b.winner.tieKey, b.symbol)

/-- The outcome of resolution. -/
structure Resolution where
  live : List Bool
  symbolIds : List (List ℕ)
  extracted : List (List ℕ)
  undefined : List UndefinedSymbol
  duplicates : List DuplicateSymbol

/-- What the driver reports after the rounds. -/
def resolutionOf (rounds : List (RoundEnd σ)) (last : RoundEnd σ) : Resolution where
  live := (List.range last.files.length).map last.live
  symbolIds := (List.range last.files.length).map last.symbolIds
  extracted := rounds.dropLast.map fun e => byPosition e.files e.members
  undefined := collectUndefined last.table last.files
    (liveWork last.files.length last.live last.symbolIds)
  duplicates := collectDuplicates resolver last.table last.files
    (liveWork last.files.length last.live last.symbolIds)

/-- The state of the first round. -/
def initialState (state : σ) (files : List ResolveFile) (t : SymbolTable) : DriverState σ where
  hook := state
  files := files
  table := t
  live := fun _ => false
  symbolIds := fun _ => []
  load := (List.range files.length).filter fun i => (fileAt files i).isLiveAtStart
  lazy := (List.range files.length).filter fun i => !(fileAt files i).isLiveAtStart

/-- Resolves the symbols of `files` into the table, extracting archive members until nothing
changes.  Returns what every round left, and the outcome. -/
def resolveSymbolsWith (fuel : ℕ) (state : σ) (t : SymbolTable) (files : List ResolveFile) :
    Option (Except ResolveError (List (RoundEnd σ) × Resolution)) :=
  if U32_MAX < files.length then
    some (.error (.table (.limit s!"{files.length} input files (at most {U32_MAX})")))
  else
    match resolveRounds hash memory resolver hook sched fuel 0 (initialState state files t) with
    | none => none
    | some (.error e) => some (.error e)
    | some (.ok rounds) =>
      match rounds.getLast? with
      | none => none
      | some last => some (.ok (rounds, resolutionOf resolver rounds last))

end Driver

end Qld.Symbols
