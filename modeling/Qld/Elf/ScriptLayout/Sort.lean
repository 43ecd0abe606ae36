import Qld.Lib.Comparator
import Qld.Script.Pattern

/-!
# The order of the members of an output section

The model of `sort_rule`, `compare_sections` and `build_entries` of `elf/script_layout/engine.rs`.

* `SortRule`, `sortRule` — how the sections that one description matches are ordered;
* `compareSections` — two sections under a rule;
* `entryCmp` — two members of an output section, generated ones among them;
* `Build`, `buildEntries` — the members of an output section, in order.
-/

namespace Qld.Elf.ScriptLayout

open Qld.Lib Qld.Script

/-! ### Sort rules -/

/-- Sorting requested with the `SORT_*` keywords. -/
inductive SortMode where
  | none
  | name
  | alignment
  | nameAlignment
  | alignmentName
  | initPriority
  | noSort
  deriving DecidableEq, Repr

/-- How the members matched by one description are ordered; `files`: by file name first. -/
structure SortRule where
  mode : SortMode
  reverse : Bool
  files : Bool
  deriving DecidableEq, Repr

/-- A section pattern of an input description, as far as sorting goes. -/
structure SectionSpec where
  sort : SortMode
  reverse : Bool
  deriving DecidableEq, Repr

/-- An input section description, as far as sorting goes. -/
structure Description where
  sections : Option (List SectionSpec)
  fileSort : SortMode
  deriving DecidableEq, Repr

/-- The sort rule of description `sub`, with `--sort-section` for those that do not sort
themselves; `none` keeps input order. -/
def sortRule (descriptions : List (ℕ × Description)) (sub : ℕ) (sortSection : SortMode) :
    Option SortRule := do
  let (_, description) ← descriptions.find? fun d => d.1 = sub
  let specs := description.sections.getD []
  let mode := specs.head?.elim .none SectionSpec.sort
  let reverse := specs.head?.elim false SectionSpec.reverse
  if specs.any fun s => s.sort ≠ mode ∨ s.reverse ≠ reverse then none
  else
    let mode := if mode = .none then sortSection else mode
    let files : Bool := description.fileSort = .name
    if mode ≠ .none ∨ files then some ⟨mode, reverse, files⟩ else none

/-! ### Comparing sections -/

/-- Information for sorting one member.  `class_` is 1 for input sections. -/
structure SortInfo where
  class_ : ℕ
  file : List UInt8
  member : List UInt8
  name : List UInt8
  align : ℕ
  id : ℕ
  deriving DecidableEq, Repr

def byName (rule : SortRule) (a b : SortInfo) : Ordering :=
  if rule.reverse then compare b.name a.name else compare a.name b.name

def byAlign (rule : SortRule) (a b : SortInfo) : Ordering :=
  if rule.reverse then compare a.align b.align else compare b.align a.align

/-- Compares two sections under a rule. -/
def compareSections (rule : SortRule) (a b : SortInfo) : Ordering :=
  match rule.mode with
  | .none | .noSort => .eq
  | .name => byName rule a b
  | .alignment => byAlign rule a b
  | .nameAlignment => (byName rule a b).then (byAlign rule a b)
  | .alignmentName => (byAlign rule a b).then (byName rule a b)
  | .initPriority =>
    match initPriority a.name, initPriority b.name with
    | some pa, some pb =>
      (if rule.reverse then compare pb pa else compare pa pb).then (byName rule a b)
    | _, _ => byName rule a b

/-! ### Members -/

/-- What a member of an output section is. -/
inductive Member where
  | input (id : ℕ)
  | merge (group : ℕ)
  | synthetic (kind : ℕ)
  deriving DecidableEq, Repr

/-- One member of an output section; `sub` is its description. -/
structure Entry where
  member : Member
  sub : ℕ
  size : ℕ
  align : ℕ
  offset : ℕ
  deriving DecidableEq, Repr

/-- What the symbol ordering file says of a member: nothing of one that is no input section. -/
def orderKey (order : Option (ℕ → ℤ)) (s : SortInfo) : ℤ :=
  order.elim 0 fun priority => if s.class_ = 1 then priority s.id else 0

/-- Compares two members under the rule of their description. -/
def byRule (rule : Option SortRule) (sa sb : SortInfo) : Ordering :=
  if sa.class_ ≠ 1 ∨ sb.class_ ≠ 1 then
    -- Generated sections come first in a sorted description.
    if rule.isSome then compare sa.class_ sb.class_ else .eq
  else
    match rule with
    | some rule =>
      (if rule.files then (compare sa.file sb.file).then (compare sa.member sb.member)
        else .eq).then (compareSections rule sa sb)
    | none => .eq

/-- Compares two members of an output section; `rules` gives the rule of a description. -/
def entryCmp (order : Option (ℕ → ℤ)) (rules : ℕ → Option SortRule)
    (a b : Entry × SortInfo) : Ordering :=
  (compare a.1.sub b.1.sub).then <|
    (compare (decide (2 ≤ a.2.class_)) (decide (2 ≤ b.2.class_))).then <|
      (compare (orderKey order a.2) (orderKey order b.2)).then <|
        (byRule (rules a.1.sub) a.2 b.2).then <|
          (compare a.2.id b.2.id).then (compare a.2.class_ b.2.class_)

/-- An input section that becomes a member: a live one that was placed, and the first one of its
group of merged sections. -/
structure InputSection where
  id : ℕ
  output : ℕ
  sub : ℕ
  member : Member
  file : List UInt8
  archiveMember : List UInt8
  name : List UInt8
  size : ℕ
  align : ℕ
  deriving DecidableEq, Repr

/-- A section that the linker generates. -/
structure SyntheticPlace where
  kind : ℕ
  isCommon : Bool
  output : ℕ
  sub : ℕ
  size : ℕ
  align : ℕ
  deriving DecidableEq, Repr

/-- What the members of the output sections are made from. -/
structure Build where
  inputs : List InputSection
  synthetic : List SyntheticPlace
  /-- The section number that generated sections are ordered by. -/
  syntheticId : ℕ
  /-- The output, kind, size and alignment of the end mark of `.eh_frame`. -/
  ehFrameEnd : Option (ℕ × ℕ × ℕ × ℕ)
  /-- The input descriptions of an output section. -/
  descriptions : ℕ → List (ℕ × Description)
  sortSection : SortMode
  /-- The priorities of a symbol ordering file, for the outputs that it reorders. -/
  order : ℕ → Option (ℕ → ℤ)

def inputEntry (s : InputSection) : Entry × SortInfo :=
  (⟨s.member, s.sub, s.size, max s.align 1, 0⟩,
    ⟨1, s.file, s.archiveMember, s.name, max s.align 1, s.id⟩)

def syntheticEntry (syntheticId : ℕ) (s : SyntheticPlace) : Entry × SortInfo :=
  (⟨.synthetic s.kind, s.sub, s.size, max s.align 1, 0⟩,
    ⟨if s.isCommon then 2 else 0, [], [], [], max s.align 1,
      if s.isCommon then 2 ^ 32 - 1 else syntheticId⟩)

def ehFrameEndEntry (kind size align : ℕ) : Entry × SortInfo :=
  (⟨.synthetic kind, 2 ^ 16 - 1, size, max align 1, 0⟩, ⟨3, [], [], [], 1, 2 ^ 32 - 1⟩)

namespace Build

variable (build : Build) (output : ℕ)

/-- The members of an output section, as they come. -/
def members : List (Entry × SortInfo) :=
  (build.inputs.filter fun s => s.output = output).map inputEntry ++
    (build.synthetic.filter fun s => s.output = output).map (syntheticEntry build.syntheticId) ++
    (build.ehFrameEnd.elim [] fun (out, kind, size, align) =>
      if out = output ∧ 0 < size then [ehFrameEndEntry kind size align] else [])

/-- The rule of a description: known once an input section asked for it. -/
def rules (sub : ℕ) : Option SortRule :=
  if build.inputs.any fun s => s.output = output ∧ s.sub = sub then
    sortRule (build.descriptions output) sub build.sortSection
  else none

def cmp : Entry × SortInfo → Entry × SortInfo → Ordering :=
  entryCmp (build.order output) (build.rules output)

/-- The members of an output section, in order. -/
def buildEntries : List Entry := (sortBy (build.cmp output) (build.members output)).map Prod.fst

end Build

end Qld.Elf.ScriptLayout
