import Qld.Lib.Buckets
import Qld.Lib.LittleEndian
import Qld.Script.PatternCorrect

/-!
# A rule set and its index

The model of the rules of `elf/rules.rs`: an ordered list of output sections, each with input
section descriptions.  Of a rule it holds what assigning an input section reads.

* `OutputRule`, `InputRule`, `FileFilter` — the rules, and which files a description applies to;
* `defaultRules`, `DEFAULT_RULES`, `REL_RULES`, `ARM_RULES` — the built-in layouts.

The model of `RuleSet` of `elf/rules.rs`: the compiled patterns of a rule list in match order, and
their index by the first bytes of their literal prefixes.

* `RuleSet.new` — compiling a rule list;
* `RuleSet.place`, `RuleSet.tryAt` — where the rules put one input section;
* `scan` — what a rule list says: the first description that matches.

* `tailWord_spec` — the word of a name, masked, is that of every prefix of it;
* `bucket_new` — what is filed under a key, in match order;
* `tryAt_eq_none` — a pattern the index skips does not match;
* `place_eq_scan` — the indexed lookup is the scan of all descriptions in rule order.
-/

namespace Qld.Elf.Rules

open Qld.Lib Qld.Script

/-! ### Rules -/

/-- Which files a description applies to. -/
inductive FileFilter where
  | any
  /-- Every file, but not `.ctors` and `.dtors` of `crtbegin*.o` and `crtend*.o`. -/
  | notCrtBeginEnd
  /-- Only `crtbegin.o` and `crtbegin?.o`. -/
  | crtBegin
  deriving DecidableEq

/-- Where a class of orphan sections goes. -/
inductive OrphanClass where
  | note
  | text
  | rodata
  | tdata
  | tbss
  | data
  | bss
  | nonAlloc
  deriving DecidableEq

/-- One input section description. -/
structure InputRule where
  patterns : List (List UInt8)
  files : FileFilter

/-- One output section of a layout. -/
structure OutputRule where
  name : List UInt8
  inputs : List InputRule
  /-- Orphans of this class go right after this output section. -/
  hold : Option OrphanClass

def plain (patterns : List String) : InputRule :=
  { patterns := patterns.map ascii
    files := .any }

def rule (name : String) (inputs : List InputRule) : OutputRule :=
  { name := ascii name
    inputs := inputs
    hold := none }

def hold (rule : OutputRule) (class_ : OrphanClass) : OutputRule :=
  { rule with hold := some class_ }

/-! ### The built-in layouts -/

/-- The output sections before those an architecture puts after `.rodata1`. -/
def rulesBefore (dyn plt iplt : String) : List OutputRule :=
  [ hold (rule ".note.gnu.build-id" [plain [".note.gnu.build-id"]]) .note,
    rule ".interp" [],
    rule ".hash" [],
    rule ".gnu.hash" [],
    rule ".dynsym" [],
    rule ".dynstr" [],
    rule ".gnu.version" [],
    rule ".gnu.version_d" [],
    rule ".gnu.version_r" [],
    rule dyn [],
    rule plt [plain [plt], plain [iplt]],
    rule ".relr.dyn" [],
    rule ".init" [plain [".init"]],
    rule ".plt" [plain [".plt", ".iplt"]],
    rule ".plt.got" [plain [".plt.got"]],
    rule ".plt.sec" [plain [".plt.sec"]],
    hold (rule ".text"
      [plain [".text.unlikely", ".text.*_unlikely", ".text.unlikely.*"],
       plain [".text.exit", ".text.exit.*"], plain [".text.startup", ".text.startup.*"],
       plain [".text.hot", ".text.hot.*"],
       { patterns := [".text.sorted.*"].map ascii, files := .any },
       plain [".text", ".stub", ".text.*", ".gnu.linkonce.t.*"], plain [".gnu.warning"]]) .text,
    rule ".fini" [plain [".fini"]],
    hold (rule ".rodata" [plain [".rodata", ".rodata.*", ".gnu.linkonce.r.*"]]) .rodata,
    rule ".rodata1" [plain [".rodata1"]]]

/-- The output sections behind them. -/
def rulesBehind : List OutputRule :=
  [ rule ".eh_frame_hdr" [plain [".eh_frame_hdr"], plain [".eh_frame_entry", ".eh_frame_entry.*"]],
    rule ".eh_frame" [plain [".eh_frame"], plain [".eh_frame.*"]],
    rule ".sframe" [plain [".sframe"], plain [".sframe.*"]],
    rule ".gcc_except_table" [plain [".gcc_except_table", ".gcc_except_table.*"]],
    rule ".gnu_extab" [plain [".gnu_extab*"]],
    rule ".exception_ranges" [plain [".exception_ranges*"]],
    rule ".note.build-id" [plain [".note.build-id"]],
    rule ".note.gnu.property" [plain [".note.gnu.property"]],
    rule ".note.ABI-tag" [plain [".note.ABI-tag"]],
    rule ".note.package" [plain [".note.package"]],
    rule ".note.dlopen" [plain [".note.dlopen"]],
    rule ".note.netbsd.ident" [plain [".note.netbsd.ident"]],
    rule ".note.openbsd.ident" [plain [".note.openbsd.ident"]],
    hold (rule ".tdata" [plain [".tdata", ".tdata.*", ".gnu.linkonce.td.*"]]) .tdata,
    hold (rule ".tbss"
      [plain [".tbss", ".tbss.*", ".gnu.linkonce.tb.*"], plain [".tcommon"]]) .tbss,
    rule ".preinit_array" [plain [".preinit_array"]],
    rule ".init_array"
      [{ patterns := [".init_array.*", ".ctors.*"].map ascii, files := .any },
       { patterns := [".init_array", ".ctors"].map ascii, files := .notCrtBeginEnd }],
    rule ".fini_array"
      [{ patterns := [".fini_array.*", ".dtors.*"].map ascii, files := .any },
       { patterns := [".fini_array", ".dtors"].map ascii, files := .notCrtBeginEnd }],
    rule ".ctors" [{ patterns := [".ctors"].map ascii, files := .crtBegin }, plain [".ctors"]],
    rule ".dtors" [{ patterns := [".dtors"].map ascii, files := .crtBegin }, plain [".dtors"]],
    rule ".jcr" [plain [".jcr"]],
    rule ".data.rel.ro"
      [plain [".data.rel.ro.local*", ".gnu.linkonce.d.rel.ro.local.*"],
       plain [".data.rel.ro", ".data.rel.ro.*", ".gnu.linkonce.d.rel.ro.*"]],
    rule ".dynamic" [plain [".dynamic"]],
    rule ".got" [plain [".got", ".toc"], plain [".igot"]],
    rule ".got.plt" [plain [".got.plt"], plain [".igot.plt"]],
    hold (rule ".data" [plain [".data", ".data.*", ".gnu.linkonce.d.*"]]) .data,
    rule ".data1" [plain [".data1"]],
    hold (rule ".bss" [plain [".dynbss"], plain [".bss", ".bss.*", ".gnu.linkonce.b.*"]]) .bss,
    rule ".lbss" [plain [".dynlbss"], plain [".lbss", ".lbss.*", ".gnu.linkonce.lb.*"]],
    rule ".lrodata" [plain [".lrodata", ".lrodata.*", ".gnu.linkonce.lr.*"]],
    rule ".ldata" [plain [".ldata", ".ldata.*", ".gnu.linkonce.l.*"]],
    rule ".comment" [plain [".comment"]],
    rule ".gnu.build.attributes" [plain [".gnu.build.attributes", ".gnu.build.attributes.*"]],
    rule ".debug" [plain [".debug"]],
    rule ".line" [plain [".line"]],
    rule ".debug_srcinfo" [plain [".debug_srcinfo"]],
    rule ".debug_sfnames" [plain [".debug_sfnames"]],
    rule ".debug_aranges" [plain [".debug_aranges"]],
    rule ".debug_pubnames" [plain [".debug_pubnames"]],
    rule ".debug_info" [plain [".debug_info", ".gnu.linkonce.wi.*"]],
    rule ".debug_abbrev" [plain [".debug_abbrev"]],
    rule ".debug_line" [plain [".debug_line", ".debug_line.*", ".debug_line_end"]],
    rule ".debug_frame" [plain [".debug_frame"]],
    rule ".debug_str" [plain [".debug_str"]],
    rule ".debug_loc" [plain [".debug_loc"]],
    rule ".debug_macinfo" [plain [".debug_macinfo"]],
    rule ".debug_weaknames" [plain [".debug_weaknames"]],
    rule ".debug_funcnames" [plain [".debug_funcnames"]],
    rule ".debug_typenames" [plain [".debug_typenames"]],
    rule ".debug_varnames" [plain [".debug_varnames"]],
    rule ".debug_pubtypes" [plain [".debug_pubtypes"]],
    rule ".debug_ranges" [plain [".debug_ranges"]],
    rule ".debug_addr" [plain [".debug_addr"]],
    rule ".debug_line_str" [plain [".debug_line_str"]],
    rule ".debug_loclists" [plain [".debug_loclists"]],
    rule ".debug_macro" [plain [".debug_macro"]],
    rule ".debug_names" [plain [".debug_names"]],
    rule ".debug_rnglists" [plain [".debug_rnglists"]],
    rule ".debug_str_offsets" [plain [".debug_str_offsets"]],
    hold (rule ".debug_sup" [plain [".debug_sup"]]) .nonAlloc]

/-- GNU ld's default layout: `dyn`, `plt` and `iplt` name the dynamic relocation sections, and
`unwind` holds the output sections an architecture puts after `.rodata1`. -/
def defaultRules (dyn plt iplt : String) (unwind : List OutputRule) : List OutputRule :=
  rulesBefore dyn plt iplt ++ unwind ++ rulesBehind

def DEFAULT_RULES : List OutputRule := defaultRules ".rela.dyn" ".rela.plt" ".rela.iplt" []

/-- The layout for architectures whose dynamic relocations are `SHT_REL`. -/
def REL_RULES : List OutputRule := defaultRules ".rel.dyn" ".rel.plt" ".rel.iplt" []

/-- GNU ld's Arm layout. -/
def ARM_RULES : List OutputRule := defaultRules ".rel.dyn" ".rel.plt" ".rel.iplt"
  [ rule ".ARM.extab" [plain [".ARM.extab*", ".gnu.linkonce.armextab.*"]],
    rule ".ARM.exidx" [plain [".ARM.exidx*", ".gnu.linkonce.armexidx.*"]]]

/-! ### Start files -/

def SLASH : UInt8 := 47

def baseName (path : List UInt8) : List UInt8 :=
  (path.reverse.takeWhile fun b => b ≠ SLASH).reverse

/-- `crtbegin.o` or `crtbegin?.o`. -/
def isCrtBegin (file : List UInt8) : Bool :=
  let name := baseName file
  name = ascii "crtbegin.o" ||
    (name.length = 11 && (ascii "crtbegin").isPrefixOf name && (ascii ".o").isSuffixOf name)

/-- `crtbegin*.o` or `crtend*.o`. -/
def isCrtBeginEnd (file : List UInt8) : Bool :=
  let name := baseName file
  isCrtBegin file || name = ascii "crtend.o" ||
    (name.length = 9 && (ascii "crtend").isPrefixOf name && (ascii ".o").isSuffixOf name)

/-- Whether a description with this filter applies to a section of a file. -/
def FileFilter.applies (filter : FileFilter) (name fileName : List UInt8) : Bool :=
  match filter with
  | any => true
  | notCrtBeginEnd => !((name = ascii ".ctors" || name = ascii ".dtors") && isCrtBeginEnd fileName)
  | crtBegin => isCrtBegin fileName

/-! ### Keys -/

/-- How many bytes of a literal prefix key the index. -/
def KEY : ℕ := 4

def U16_MAX : ℕ := 65535

def U32_MAX : ℕ := 4294967295

def U64_MAX : ℕ := 18446744073709551615

/-- A conversion that saturates. -/
def saturate (max n : ℕ) : ℕ := if n ≤ max then n else max

/-- The first bytes of a text, if it is that long. -/
def firstChunk (text : List UInt8) : Option (List UInt8) :=
  if KEY ≤ text.length then some (text.take KEY) else none

/-- Bytes `KEY .. KEY + 8` of a text as a little-endian word, zero-padded, and a mask of the bytes
the text reaches. -/
def tailWord (name : List UInt8) : ℕ × ℕ :=
  let tail := name.drop KEY
  let len := min tail.length 8
  let bytes := tail.take len ++ List.replicate (8 - len) 0
  let mask := if len = 8 then U64_MAX else 1 <<< (len * 8) - 1
  (leValue bytes, mask)

/-! ### Rule sets -/

/-- One pattern in a bucket of the index. -/
structure Candidate where
  /-- Position in match order. -/
  position : ℕ
  /-- Bytes `KEY .. KEY + 8` of the literal prefix, and those the prefix reaches, all ones. -/
  word : ℕ
  mask : ℕ

/-- Where the rules put one input section. -/
structure Placement where
  output : ℕ
  input : ℕ
  deriving DecidableEq

/-- A compiled rule set. -/
structure RuleSet where
  outputs : List OutputRule
  /-- Output rule, input description and pattern, in match order. -/
  patterns : List (ℕ × ℕ × Pattern)
  /-- The patterns by the first bytes of their literal prefixes. -/
  index : Buckets (List UInt8) Candidate
  /-- Whether every pattern is in the index. -/
  indexed : Bool
  /-- For each orphan class, the output rule it follows. -/
  holds : List (OrphanClass × ℕ)

/-- The patterns of a rule list, in match order. -/
def compiledPatterns (outputs : List OutputRule) : List (ℕ × ℕ × Pattern) :=
  outputs.zipIdx.flatMap fun output =>
    output.1.inputs.zipIdx.flatMap fun input =>
      input.1.patterns.map fun pattern =>
        (saturate U16_MAX output.2, saturate U16_MAX input.2, Pattern.section_ pattern)

/-- The key a pattern is filed under. -/
def keyOf (entry : (ℕ × ℕ × Pattern) × ℕ) : Option (List UInt8) :=
  firstChunk entry.1.2.2.literalPrefix

/-- What is filed for a pattern. -/
def candidate (entry : (ℕ × ℕ × Pattern) × ℕ) : Candidate :=
  let tail := tailWord entry.1.2.2.literalPrefix
  { position := saturate U32_MAX entry.2
    word := tail.1
    mask := tail.2 }

namespace RuleSet

/-- Compiles a rule list. -/
def new (outputs : List OutputRule) : RuleSet :=
  let patterns := compiledPatterns outputs
  { outputs := outputs
    patterns := patterns
    index := patterns.zipIdx.foldl (fun index entry =>
      (keyOf entry).elim index fun key => index.push key (candidate entry)) []
    indexed := patterns.zipIdx.all fun entry => (keyOf entry).isSome
    holds := outputs.zipIdx.filterMap fun output =>
      output.1.hold.map fun class_ => (class_, saturate U16_MAX output.2) }

/-- The placement one pattern gives a name, if it matches and its description has the file. -/
def tryAt (rules : RuleSet) (position : ℕ) (name fileName : List UInt8) : Option Placement := do
  let (output, input, pattern) ← rules.patterns[position]?
  if !pattern.matches name then none
  else
    let rule ← rules.outputs[output]?.bind fun o => o.inputs[input]?
    if rule.files.applies name fileName then some { output := output, input := input } else none

/-- Tests every pattern. -/
def placeAll (rules : RuleSet) (name fileName : List UInt8) : Option Placement :=
  (List.range rules.patterns.length).findSome? fun p => rules.tryAt p name fileName

/-- The first description that matches section `name` of a file. -/
def place (rules : RuleSet) (name fileName : List UInt8) : Option Placement :=
  match firstChunk name with
  | some key =>
    if rules.indexed then do
      let bucket ← rules.index.get key
      let tail := (tailWord name).1
      (bucket.filter fun candidate => tail &&& candidate.mask = candidate.word).findSome?
        fun candidate => rules.tryAt candidate.position name fileName
    else rules.placeAll name fileName
  | none => rules.placeAll name fileName

/-- The output rule orphans of a class follow. -/
def hold (rules : RuleSet) (class_ : OrphanClass) : ℕ :=
  (rules.holds.find? fun entry => entry.1 = class_).elim U16_MAX (·.2)

end RuleSet

/-! ### What a rule list says -/

/-- A description matches a section of a file. -/
def InputRule.takes (input : InputRule) (name fileName : List UInt8) : Bool :=
  input.patterns.any (fun pattern => (Pattern.section_ pattern).matches name) &&
    input.files.applies name fileName

/-- The first description that matches, in rule order. -/
def scan (outputs : List OutputRule) (name fileName : List UInt8) : Option Placement :=
  outputs.zipIdx.findSome? fun output =>
    output.1.inputs.zipIdx.findSome? fun input =>
      if input.1.takes name fileName then some { output := output.2, input := input.2 } else none

/-- The patterns of a rule list. -/
def patternTexts (outputs : List OutputRule) : List (List UInt8) :=
  outputs.flatMap fun output => output.inputs.flatMap fun input => input.patterns

/-- The indices of a rule list fit their fields. -/
structure Fits (outputs : List OutputRule) : Prop where
  outputs_le : outputs.length ≤ U16_MAX + 1
  inputs_le : ∀ output ∈ outputs, output.inputs.length ≤ U16_MAX + 1
  patterns_le : (patternTexts outputs).length ≤ U32_MAX + 1

/-! ### Words -/

theorem leValue_zeros (n : ℕ) : leValue (List.replicate n 0) = 0 := by
  induction n with
  | zero => rfl
  | succ n ih =>
    rw [List.replicate_succ, leValue, ih]
    rfl

/-- The first bytes of a text are the low bytes of its number. -/
theorem leValue_prefix {xs ys : List UInt8} (h : xs <+: ys) :
    leValue ys % 256 ^ xs.length = leValue xs := by
  rw [← leValue_take, ← List.prefix_iff_eq_take.mp h]

variable {name : List UInt8}

variable {pre key : List UInt8}

/-- **Tail words.**  The word of a name, masked to a prefix, is that of the prefix. -/
theorem tailWord_spec (h : pre <+: name) :
    (tailWord name).1 &&& (tailWord pre).2 = (tailWord pre).1 := by
  have hmask : (tailWord pre).2 = 2 ^ (8 * min (pre.drop KEY).length 8) - 1 := by
    simp only [tailWord]
    split
    · next hlen => rw [hlen]; rfl
    · rw [Nat.one_shiftLeft, Nat.mul_comm]
  have hword : ∀ text : List UInt8, (tailWord text).1 = leValue ((text.drop KEY).take 8) := by
    intro text
    simp only [tailWord, leValue_append, leValue_zeros, Nat.mul_zero, Nat.add_zero]
    congr 1
    rw [List.take_eq_take_iff]
    omega
  have hdrop : pre.drop KEY <+: name.drop KEY := h.drop KEY
  have htake : (pre.drop KEY).take 8 <+: (name.drop KEY).take 8 := by
    obtain ⟨more, hmore⟩ := hdrop
    rw [← hmore, List.take_append]
    exact List.prefix_append _ _
  have hlen : ((pre.drop KEY).take 8).length = min (pre.drop KEY).length 8 := by
    rw [List.length_take, Nat.min_comm]
  rw [hmask, Nat.and_two_pow_sub_one_eq_mod, hword, hword, Nat.pow_mul, ← hlen]
  exact leValue_prefix htake

theorem firstChunk_prefix (h : pre <+: name) (hkey : firstChunk pre = some key) :
    firstChunk name = some key := by
  obtain ⟨rest, rfl⟩ := h
  simp only [firstChunk, Option.ite_none_right_eq_some, Option.some.injEq] at hkey ⊢
  obtain ⟨hlen, rfl⟩ := hkey
  rw [List.length_append, List.take_append_of_le_length hlen]
  exact ⟨by omega, rfl⟩

/-! ### The patterns of a rule list -/

/-- The placement of a pattern, when it matches and its description applies. -/
def tryEntry (outputs : List OutputRule) (name fileName : List UInt8) (entry : ℕ × ℕ × Pattern) :
    Option Placement :=
  if entry.2.2.matches name then
    (outputs[entry.1]?.bind fun o => o.inputs[entry.2.1]?).bind fun rule =>
      if rule.files.applies name fileName then
        some { output := entry.1, input := entry.2.1 }
      else none
  else none

theorem tryAt_new (outputs : List OutputRule) (position : ℕ) (name fileName : List UInt8) :
    (RuleSet.new outputs).tryAt position name fileName =
      (compiledPatterns outputs)[position]?.bind (tryEntry outputs name fileName) := by
  show (compiledPatterns outputs)[position]?.bind _ = _
  congr 1
  funext entry
  obtain ⟨output, input, pattern⟩ := entry
  cases hmatches : pattern.matches name <;> simp [tryEntry, hmatches, RuleSet.new]

variable {outputs : List OutputRule}

variable {entry : ℕ × ℕ × Pattern}

theorem mem_compiledPatterns (h : entry ∈ compiledPatterns outputs) :
    ∃ text, entry.2.2 = Pattern.section_ text := by
  simp only [compiledPatterns, List.mem_flatMap, List.mem_map] at h
  obtain ⟨_, _, _, _, text, _, rfl⟩ := h
  exact ⟨text, rfl⟩

theorem length_compiledPatterns (outputs : List OutputRule) :
    (compiledPatterns outputs).length = (patternTexts outputs).length := by
  have hzip : ∀ {α : Type} (xs : List α) (f : α → ℕ),
      (xs.zipIdx.map fun x => f x.1).sum = (xs.map f).sum := by
    intro α xs f
    rw [show (fun x : α × ℕ => f x.1) = f ∘ Prod.fst from rfl, ← List.map_map,
      List.zipIdx_map_fst]
  simp only [compiledPatterns, patternTexts, List.length_flatMap, List.length_map]
  rw [← hzip outputs]
  congr 1
  apply List.map_congr_left
  intro output _
  exact hzip output.1.inputs fun input => input.patterns.length

/-- One after the other, the patterns give what the descriptions say. -/
theorem findSome?_compiledPatterns (h : Fits outputs) (name fileName : List UInt8) :
    (compiledPatterns outputs).findSome? (tryEntry outputs name fileName) =
      scan outputs name fileName := by
  rw [compiledPatterns, findSome?_flatMap, scan]
  refine findSome?_congr fun output houtput => ?_
  rw [findSome?_flatMap]
  refine findSome?_congr fun input hinput => ?_
  rw [List.findSome?_map]
  have hget := List.mem_zipIdx_iff_getElem?.mp houtput
  have hget' := List.mem_zipIdx_iff_getElem?.mp hinput
  have hlt := (List.getElem?_eq_some_iff.mp hget).1
  have hlt' := (List.getElem?_eq_some_iff.mp hget').1
  have hle := h.outputs_le
  have hle' := h.inputs_le _ (List.mem_of_getElem? hget)
  have hsat : saturate U16_MAX output.2 = output.2 := if_pos (by omega)
  have hsat' : saturate U16_MAX input.2 = input.2 := if_pos (by omega)
  have hentry : ∀ text, tryEntry outputs name fileName
      (saturate U16_MAX output.2, saturate U16_MAX input.2, Pattern.section_ text) =
      if (Pattern.section_ text).matches name && input.1.files.applies name fileName then
        some { output := output.2, input := input.2 } else none := by
    intro text
    cases hmatches : (Pattern.section_ text).matches name <;>
      simp [tryEntry, hsat, hsat', hget, hget', hmatches]
  unfold InputRule.takes
  induction input.1.patterns with
  | nil => rfl
  | cons text texts ih =>
    rw [List.findSome?_cons, ih, Function.comp_apply, hentry, List.any_cons]
    cases (Pattern.section_ text).matches name <;>
      cases input.1.files.applies name fileName <;> simp

/-! ### The index -/

theorem bucket_new (outputs : List OutputRule) (key : List UInt8) :
    (RuleSet.new outputs).index.bucket key =
      ((compiledPatterns outputs).zipIdx.filter fun entry => keyOf entry = some key).map
        candidate := by
  show Buckets.bucket (List.foldl _ [] _) key = _
  rw [Buckets.bucket_foldl, Buckets.bucket_nil, List.nil_append]

/-- What a pattern matches has its key, and the word of its literal prefix. -/
theorem key_of_matches {entry : (ℕ × ℕ × Pattern) × ℕ} (hmem : entry.1 ∈ compiledPatterns outputs)
    (h : entry.1.2.2.matches name = true) :
    (∀ key, keyOf entry = some key → firstChunk name = some key) ∧
      (tailWord name).1 &&& (candidate entry).mask = (candidate entry).word := by
  obtain ⟨text, htext⟩ := mem_compiledPatterns hmem
  have hpre : entry.1.2.2.literalPrefix <+: name := by
    rw [htext] at h ⊢
    exact section_literalPrefix h
  exact ⟨fun key hkey => firstChunk_prefix hpre hkey, tailWord_spec hpre⟩

theorem tryEntry_eq_none {fileName : List UInt8} (h : entry.2.2.matches name ≠ true) :
    tryEntry outputs name fileName entry = none := if_neg h

/-- The lookup in the index is the test of all patterns. -/
theorem place_indexed (h : Fits outputs) (hindexed : (RuleSet.new outputs).indexed = true)
    (hkey : firstChunk name = some key) (fileName : List UInt8) :
    (RuleSet.new outputs).place name fileName =
      (compiledPatterns outputs).findSome? (tryEntry outputs name fileName) := by
  set rules := RuleSet.new outputs with hrules
  set matching : (ℕ × ℕ × Pattern) × ℕ → Bool := fun entry =>
    (tailWord name).1 &&& (candidate entry).mask = (candidate entry).word with hmatching
  calc rules.place name fileName
      = ((rules.index.bucket key).filter fun c =>
          (tailWord name).1 &&& c.mask = c.word).findSome?
            fun c => rules.tryAt c.position name fileName := by
        unfold RuleSet.place Buckets.bucket
        rw [hkey]
        show (if rules.indexed = true then _ else _) = _
        rw [if_pos hindexed]
        cases rules.index.get key <;> rfl
    _ = (((compiledPatterns outputs).zipIdx.filter fun entry => keyOf entry = some key).filter
          matching).findSome? fun entry =>
            rules.tryAt (candidate entry).position name fileName := by
        rw [hrules, bucket_new, List.filter_map, List.findSome?_map]
        rfl
    _ = (((compiledPatterns outputs).zipIdx.filter fun entry => keyOf entry = some key).filter
          matching).findSome? fun entry => tryEntry outputs name fileName entry.1 := by
        refine findSome?_congr fun entry hentry => ?_
        have hget := List.mem_zipIdx_iff_getElem?.mp
          (List.mem_of_mem_filter (List.mem_of_mem_filter hentry))
        have hlt := (List.getElem?_eq_some_iff.mp hget).1
        have hle := h.patterns_le
        rw [← length_compiledPatterns] at hle
        have hsat : (candidate entry).position = entry.2 :=
          if_pos (show entry.2 ≤ U32_MAX by omega)
        rw [hsat, hrules, tryAt_new, hget, Option.bind_some]
    _ = (compiledPatterns outputs).zipIdx.findSome? fun entry =>
          tryEntry outputs name fileName entry.1 := by
        have hmem : ∀ entry ∈ (compiledPatterns outputs).zipIdx,
            entry.1 ∈ compiledPatterns outputs := fun entry hentry =>
          List.mem_of_getElem? (List.mem_zipIdx_iff_getElem?.mp hentry)
        rw [findSome?_filter_of_none, findSome?_filter_of_none]
        · -- Every pattern has a key, and a name it matches has that key too.
          intro entry hentry hother
          refine tryEntry_eq_none fun hmatches => of_decide_eq_false hother ?_
          obtain ⟨k, hk⟩ := Option.isSome_iff_exists.mp (List.all_eq_true.mp hindexed entry hentry)
          have := (key_of_matches (hmem entry hentry) hmatches).1 k hk
          rw [hk, ← this, hkey]
        · intro entry hentry hother
          refine tryEntry_eq_none fun hmatches => of_decide_eq_false hother ?_
          exact (key_of_matches (hmem entry (List.mem_of_mem_filter hentry)) hmatches).2
    _ = (compiledPatterns outputs).findSome? (tryEntry outputs name fileName) := by
        conv_rhs => rw [← List.zipIdx_map_fst 0 (compiledPatterns outputs)]
        rw [List.findSome?_map]
        rfl

/-- **The index (proved).**  The indexed lookup is the scan of all descriptions in rule order. -/
theorem place_eq_scan {outputs : List OutputRule} (h : Fits outputs) (name fileName : List UInt8) :
    (RuleSet.new outputs).place name fileName = scan outputs name fileName := by
  rw [← findSome?_compiledPatterns h]
  have hall : (RuleSet.new outputs).placeAll name fileName =
      (compiledPatterns outputs).findSome? (tryEntry outputs name fileName) := by
    rw [← findSome?_range (compiledPatterns outputs)]
    exact findSome?_congr fun p _ => tryAt_new outputs p name fileName
  cases hkey : firstChunk name with
  | none =>
    unfold RuleSet.place
    rw [hkey]
    exact hall
  | some key =>
    by_cases hindexed : (RuleSet.new outputs).indexed = true
    · exact place_indexed h hindexed hkey fileName
    · unfold RuleSet.place
      rw [hkey]
      show (if (RuleSet.new outputs).indexed = true then _ else _) = _
      rw [if_neg hindexed]
      exact hall

/-! ### The built-in layouts -/

set_option maxRecDepth 2000 in
theorem fits_builtin {rules : List OutputRule} (h : rules ∈ [DEFAULT_RULES, REL_RULES, ARM_RULES]) :
    Fits rules := by
  simp only [List.mem_cons, List.not_mem_nil, or_false] at h
  obtain rfl | rfl | rfl := h
  · exact ⟨by decide, by decide, by decide⟩
  · exact ⟨by decide, by decide, by decide⟩
  · exact ⟨by decide, by decide, by decide⟩

theorem place_eq_scan_default :
    (RuleSet.new DEFAULT_RULES).place (ascii ".text.hot.f") (ascii "a.o") =
      scan DEFAULT_RULES (ascii ".text.hot.f") (ascii "a.o") :=
  place_eq_scan (fits_builtin (by simp)) _ _

end Qld.Elf.Rules
