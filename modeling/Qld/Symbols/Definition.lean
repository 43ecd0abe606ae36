import Mathlib.Algebra.Group.Nat.Defs
import Mathlib.Data.Prod.Lex
import Qld.Lib.BestOf

/-!
# Symbol definitions and the rules that pick between them

The model of `symbols/definition.rs`, with the precedence rules of the three object formats
(`elf/resolve.rs`, `coff/resolve.rs`, `macho/resolve.rs`):

* `Definition` — one definition of a symbol, with its tie-break key;
* `Resolver` and `takesPrecedence` — a format's rules, and the combined order the symbol
  table uses: the rules first, then the lower tie-break key;
* `elfRules`, `coffRules`, `machRules` — the three instances, gathered as `FormatRules`;
* `takesPrecedence_iff_key` — each of the three compares a key in a linear
  order, although the comparison of the ELF rules alone is not transitive;
* `DefCell` — the cell the table stores a definition in, and what a run of offers to it
  leaves (`insertAll_load`).

Positions, file and symbol indices are only compared, so they are natural numbers here; the
format-specific word `aux` is masked, and is a 64-bit word.
-/

namespace Qld.Symbols

open Qld.Lib

/-- The format-neutral category of a symbol definition. -/
inductive DefinitionKind where
  | undefined
  | lazy
  | shared
  | weak
  | common
  | regular
  deriving DecidableEq, Repr

/-- The discriminant of `#[repr(u8)]`. -/
def DefinitionKind.toU8 : DefinitionKind → ℕ
  | .undefined => 0
  | .lazy => 1
  | .shared => 2
  | .weak => 3
  | .common => 4
  | .regular => 5

def DefinitionKind.fromU8 : ℕ → DefinitionKind
  | 1 => .lazy
  | 2 => .shared
  | 3 => .weak
  | 4 => .common
  | 5 => .regular
  | _ => .undefined

@[simp] theorem DefinitionKind.fromU8_toU8 (k : DefinitionKind) : fromU8 k.toU8 = k := by
  cases k <;> rfl

/-- One definition of a symbol, as stored in the symbol table. -/
structure Definition where
  kind : DefinitionKind
  file : ℕ
  index : ℕ
  position : ℕ
  aux : UInt64
  deriving DecidableEq, Repr

/-- The tie-break key: input position, then file, then symbol index. -/
abbrev TieKey := ℕ ×ₗ ℕ ×ₗ ℕ

namespace Definition

/-- The empty definition every symbol starts with. -/
def undefined : Definition where
  kind := .undefined
  file := 2 ^ 32 - 1
  index := 2 ^ 32 - 1
  position := 2 ^ 64 - 1
  aux := 0

def isDefined (d : Definition) : Bool := d.kind != .undefined

def tieKey (d : Definition) : TieKey := toLex (d.position, toLex (d.file, d.index))

def sameOrigin (d other : Definition) : Bool := d.file == other.file && d.index == other.index

end Definition

/-- A format's symbol precedence rules. -/
structure Resolver where
  compare : Definition → Definition → Ordering
  isDuplicate : Definition → Definition → Bool
  /-- Whether a non-weak reference to a symbol with this best definition extracts its file. -/
  extracts : Definition → Bool := fun current => current.kind == .lazy

/-- The outcome of a comparison, with `tie` for equal candidates. -/
def settle (o : Ordering) (tie : Bool) : Bool :=
  match o with
  | .gt => true
  | .lt => false
  | .eq => tie

/-- Whether `candidate` should replace `current`. -/
def takesPrecedence (resolver : Resolver) (candidate current : Definition) : Bool :=
  if !candidate.isDefined then false
  else if !current.isDefined then true
  else settle (resolver.compare candidate current) (decide (candidate.tieKey < current.tieKey))

theorem takesPrecedence_undefined_left (r : Resolver) {c : Definition} (d : Definition)
    (hc : c.isDefined = false) : takesPrecedence r c d = false := by
  simp [takesPrecedence, hc]

theorem takesPrecedence_undefined_right (r : Resolver) {c d : Definition}
    (hc : c.isDefined = true) (hd : d.isDefined = false) : takesPrecedence r c d = true := by
  simp [takesPrecedence, hc, hd]

/-! ### The three formats -/

/-- Bit of `Definition.aux` set for definitions in COMDAT group sections. -/
def AUX_COMDAT : UInt64 := (1 : UInt64) <<< (63 : UInt64)

/-- `ElfRules::rank`. -/
def elfRank : DefinitionKind → ℕ
  | .undefined => 0
  | .lazy => 1
  | .shared => 2
  | .weak => 3
  | .common => 4
  | .regular => 5

/-- A lazy candidate and a shared one, in either order. -/
def LazyAndShared (a b : Definition) : Prop :=
  (a.kind = .lazy ∧ b.kind = .shared) ∨ (a.kind = .shared ∧ b.kind = .lazy)

instance (a b : Definition) : Decidable (LazyAndShared a b) :=
  inferInstanceAs (Decidable (_ ∨ _))

/-- `ElfRules::compare`: between a lazy member and a shared library, the earlier input. -/
def elfCompare (a b : Definition) : Ordering :=
  if LazyAndShared a b then
    compare b.position a.position
  else
    let byRank := compare (elfRank a.kind) (elfRank b.kind)
    if byRank = .eq ∧ a.kind = .common then
      compare (a.aux &&& ~~~AUX_COMDAT) (b.aux &&& ~~~AUX_COMDAT)
    else byRank

def elfRules (allowMultipleDefinition : Bool) : Resolver where
  compare := elfCompare
  isDuplicate winner other :=
    !allowMultipleDefinition && winner.kind == .regular && other.kind == .regular &&
      (winner.aux &&& AUX_COMDAT == 0 || other.aux &&& AUX_COMDAT == 0)

/-- The comparison shared by the COFF and Mach-O rules: the rank of the kind, then the
size of two commons. -/
def rankCompare (rank : DefinitionKind → ℕ) (a b : Definition) : Ordering :=
  match compare (rank a.kind) (rank b.kind) with
  | .eq => if a.kind = .common then compare a.aux b.aux else .eq
  | other => other

def coffRules (allowMultipleDefinition : Bool) : Resolver where
  compare := rankCompare DefinitionKind.toU8
  isDuplicate winner other :=
    !allowMultipleDefinition && winner.kind == .regular && other.kind == .regular &&
      !winner.sameOrigin other

/-- The Mach-O rank: a common ranks below a weak definition. -/
def machRank : DefinitionKind → ℕ
  | .undefined => 0
  | .lazy => 1
  | .shared => 2
  | .common => 3
  | .weak => 4
  | .regular => 5

def machRules : Resolver where
  compare := rankCompare machRank
  isDuplicate winner other :=
    winner.kind == .regular && other.kind == .regular && !winner.sameOrigin other

/-- The precedence rules of the formats, with their options. -/
inductive FormatRules where
  | elf (allowMultipleDefinition : Bool)
  | coff (allowMultipleDefinition : Bool)
  | mach
  deriving DecidableEq, Repr

def FormatRules.resolver : FormatRules → Resolver
  | .elf allow => elfRules allow
  | .coff allow => coffRules allow
  | .mach => machRules

/-! ### Every format compares a key -/

/-- The class of a kind: the ELF rules put lazy and shared candidates in one. -/
def FormatRules.class : FormatRules → DefinitionKind → ℕ
  | .elf _, .lazy => elfRank .shared
  | .elf _, kind => elfRank kind
  | .coff _, kind => kind.toU8
  | .mach, kind => machRank kind

/-- The size two commons compare by. -/
def FormatRules.size : FormatRules → Definition → ℕ
  | .elf _, d => if d.kind = .common then (d.aux &&& ~~~AUX_COMDAT).toNat else 0
  | _, d => if d.kind = .common then d.aux.toNat else 0

/-- The key a candidate is ranked by: its class, its size, and last the tie-break key, of
which the lower one wins. -/
def FormatRules.key (rules : FormatRules) (d : Definition) : ℕ ×ₗ ℕ ×ₗ TieKeyᵒᵈ :=
  toLex (rules.class d.kind, toLex (rules.size d, OrderDual.toDual d.tieKey))

theorem FormatRules.key_lt_key (rules : FormatRules) (a b : Definition) :
    rules.key b < rules.key a ↔ rules.class b.kind < rules.class a.kind ∨
      rules.class b.kind = rules.class a.kind ∧
        (rules.size b < rules.size a ∨ rules.size b = rules.size a ∧ a.tieKey < b.tieKey) := by
  simp only [FormatRules.key, Prod.Lex.toLex_lt_toLex, OrderDual.toDual_lt_toDual]

theorem settle_compare_nat (x y : ℕ) (tie : Prop) [Decidable tie] :
    settle (compare x y) (decide tie) = true ↔ y < x ∨ y = x ∧ tie := by
  rcases lt_trichotomy x y with h | h | h
  · rw [Nat.compare_eq_lt.mpr h]
    simp only [settle, Bool.false_eq_true, false_iff, not_or, not_lt, not_and]
    exact ⟨h.le, fun hyx => absurd hyx h.ne'⟩
  · rw [Nat.compare_eq_eq.mpr h]
    simp [settle, h]
  · rw [Nat.compare_eq_gt.mpr h]
    simp [settle, h]

theorem compare_uint64 (x y : UInt64) : compare x y = compare x.toNat y.toNat := by
  show compareOfLessAndEq x y = compareOfLessAndEq x.toNat y.toNat
  simp only [compareOfLessAndEq, UInt64.lt_iff_toNat_lt, ← UInt64.toNat_inj]

/-- A comparison by the rank of the kind and then, between two commons, by a word. -/
structure RankedBy (rank : DefinitionKind → ℕ) (word : Definition → UInt64) (a b : Definition)
    (o : Ordering) : Prop where
  below : rank a.kind < rank b.kind → o = .lt
  above : rank b.kind < rank a.kind → o = .gt
  level : rank a.kind = rank b.kind → a.kind = b.kind ∧
    o = if a.kind = .common then compare (word a) (word b) else .eq

variable {a b : Definition}

theorem RankedBy.precedes {rank : DefinitionKind → ℕ} {word : Definition → UInt64} {o : Ordering}
    (h : RankedBy rank word a b o) (tie : Prop) [Decidable tie] :
    settle o (decide tie) = true ↔ rank b.kind < rank a.kind ∨ rank b.kind = rank a.kind ∧
        ((if b.kind = .common then (word b).toNat else 0) <
            (if a.kind = .common then (word a).toNat else 0) ∨
          (if b.kind = .common then (word b).toNat else 0) =
            (if a.kind = .common then (word a).toNat else 0) ∧ tie) := by
  rcases lt_trichotomy (rank a.kind) (rank b.kind) with hlt | heq | hgt
  · rw [h.below hlt]
    simp only [settle, Bool.false_eq_true, false_iff, not_or, not_lt, not_and]
    exact ⟨hlt.le, fun hyx => absurd hyx hlt.ne'⟩
  · obtain ⟨hkind, ho⟩ := h.level heq
    rw [ho, compare_uint64, hkind]
    simp only [lt_irrefl, false_or, true_and]
    by_cases hc : b.kind = .common
    · simp only [hc, if_true]
      exact settle_compare_nat _ _ _
    · simp [settle, hc]
  · rw [h.above hgt]
    simp [settle, hgt]

theorem rankCompare_rankedBy {rank : DefinitionKind → ℕ}
    (hrank : ∀ j k, rank j = rank k → j = k) (a b : Definition) :
    RankedBy rank Definition.aux a b (rankCompare rank a b) where
  below h := by simp only [rankCompare, Nat.compare_eq_lt.mpr h]
  above h := by simp only [rankCompare, Nat.compare_eq_gt.mpr h]
  level h := ⟨hrank _ _ h, by simp only [rankCompare, Nat.compare_eq_eq.mpr h]⟩

theorem machRank_injective (j k : DefinitionKind) (h : machRank j = machRank k) : j = k := by
  cases j <;> cases k <;> first | rfl | exact absurd h (by decide)

theorem toU8_injective (j k : DefinitionKind) (h : j.toU8 = k.toU8) : j = k := by
  rw [← DefinitionKind.fromU8_toU8 j, h, DefinitionKind.fromU8_toU8]

theorem tieKey_lt (a b : Definition) :
    a.tieKey < b.tieKey ↔ a.position < b.position ∨
      a.position = b.position ∧ (a.file < b.file ∨ a.file = b.file ∧ a.index < b.index) := by
  simp only [Definition.tieKey, Prod.Lex.toLex_lt_toLex]

/-- Away from the pair lazy and shared, the ELF comparison goes by class and common size. -/
theorem elfCompare_rankedBy (allow : Bool) (ha : a.isDefined = true) (hb : b.isDefined = true)
    (hmix : ¬ LazyAndShared a b) :
    RankedBy (FormatRules.elf allow).class (fun d => d.aux &&& ~~~AUX_COMDAT) a b
      (elfCompare a b) := by
  have hcompare : elfCompare a b = if a.kind = b.kind then
      (if a.kind = .common then compare (a.aux &&& ~~~AUX_COMDAT) (b.aux &&& ~~~AUX_COMDAT)
        else .eq)
      else compare (elfRank a.kind) (elfRank b.kind) := by
    rw [elfCompare, if_neg hmix]
    cases a.kind <;> cases b.kind <;> rfl
  rw [hcompare]
  constructor
  all_goals
    cases hak : a.kind <;> cases hbk : b.kind <;>
      simp_all [Definition.isDefined, LazyAndShared, FormatRules.class, elfRank, Nat.compare_eq_lt,
        Nat.compare_eq_gt]

/-- **Each format compares a key**: between defined candidates, taking precedence
is having the larger key. -/
theorem takesPrecedence_iff_key (rules : FormatRules) (ha : a.isDefined = true)
    (hb : b.isDefined = true) :
    takesPrecedence rules.resolver a b = true ↔ rules.key b < rules.key a := by
  simp only [takesPrecedence, ha, hb, Bool.not_true, Bool.false_eq_true, if_false]
  rw [FormatRules.key_lt_key]
  cases rules with
  | coff allow => exact (rankCompare_rankedBy toU8_injective a b).precedes _
  | mach => exact (rankCompare_rankedBy machRank_injective a b).precedes _
  | elf allow =>
    by_cases hmix : LazyAndShared a b
    · -- The comparison by position is the first component of the tie-break key.
      show settle (elfCompare a b) _ = true ↔ _
      rw [elfCompare, if_pos hmix, settle_compare_nat]
      have hclass : (FormatRules.elf allow).class b.kind =
          (FormatRules.elf allow).class a.kind := by
        rcases hmix with ⟨h₁, h₂⟩ | ⟨h₁, h₂⟩ <;> rw [h₁, h₂] <;> rfl
      have hsize : (FormatRules.elf allow).size b = (FormatRules.elf allow).size a := by
        rcases hmix with ⟨h₁, h₂⟩ | ⟨h₁, h₂⟩ <;> simp [FormatRules.size, h₁, h₂]
      rw [hclass, hsize, tieKey_lt]
      simp only [lt_irrefl, false_or, true_and]
      constructor
      · rintro (h | ⟨_, h⟩)
        · exact .inl h
        · exact h
      · rintro (h | ⟨h, h'⟩)
        · exact .inl h
        · exact .inr ⟨h, .inr ⟨h, h'⟩⟩
    · exact (elfCompare_rankedBy allow ha hb hmix).precedes _

/-! ### Candidates for one symbol -/

/-- The candidates for one symbol that can be told apart: all are defined, and two of the
same kind, or a lazy and a shared one, never share a tie-break key. -/
structure Distinguishable (s : Set Definition) : Prop where
  defined : ∀ a ∈ s, a.isDefined = true
  sameKind : ∀ a ∈ s, ∀ b ∈ s, a.kind = b.kind → a.tieKey = b.tieKey → a = b
  lazyShared : ∀ a ∈ s, ∀ b ∈ s, LazyAndShared a b → a.tieKey ≠ b.tieKey

theorem FormatRules.class_eq_iff (rules : FormatRules) (ha : a.isDefined = true)
    (hb : b.isDefined = true) (h : rules.class a.kind = rules.class b.kind) :
    a.kind = b.kind ∨ LazyAndShared a b := by
  cases rules with
  | elf allow =>
    cases hak : a.kind <;> cases hbk : b.kind <;>
      simp_all [Definition.isDefined, LazyAndShared, FormatRules.class, elfRank]
  | coff allow => exact .inl (toU8_injective _ _ h)
  | mach => exact .inl (machRank_injective _ _ h)

theorem FormatRules.key_injOn (rules : FormatRules) {s : Set Definition}
    (hs : Distinguishable s) : ∀ a ∈ s, ∀ b ∈ s, rules.key a = rules.key b → a = b := by
  intro a ha b hb hkey
  simp only [FormatRules.key, EmbeddingLike.apply_eq_iff_eq, Prod.mk.injEq] at hkey
  obtain ⟨hclass, _, htie⟩ := hkey
  rcases rules.class_eq_iff (hs.defined a ha) (hs.defined b hb) hclass with hkind | hmix
  · exact hs.sameKind a ha b hb hkind htie
  · exact absurd htie (hs.lazyShared a ha b hb hmix)

/-- `takes_precedence` is a strict total order on distinguishable candidates. -/
theorem takesPrecedence_strictTotalOn (rules : FormatRules) {s : Set Definition}
    (hs : Distinguishable s) :
    StrictTotalOn (fun a b => takesPrecedence rules.resolver a b = true) s :=
  .ofKey rules.key
    (fun a ha b hb => takesPrecedence_iff_key rules (hs.defined a ha) (hs.defined b hb))
    (rules.key_injOn hs)

/-- Between a lazy member and a shared library, ELF prefers the earlier input. -/
theorem elf_earlier_precedes (allow : Bool) (hmix : LazyAndShared a b)
    (hpos : a.position < b.position) :
    takesPrecedence (FormatRules.elf allow).resolver a b = true := by
  have ha : a.isDefined = true := by
    rcases hmix with ⟨h, _⟩ | ⟨h, _⟩ <;> simp [Definition.isDefined, h]
  have hb : b.isDefined = true := by
    rcases hmix with ⟨_, h⟩ | ⟨_, h⟩ <;> simp [Definition.isDefined, h]
  have hcompare : elfCompare a b = .gt := by
    rw [elfCompare, if_pos hmix, Nat.compare_eq_gt]
    exact hpos
  simp only [takesPrecedence, ha, hb, FormatRules.resolver, elfRules, hcompare, Bool.not_true,
    Bool.false_eq_true, if_false, settle]

end Qld.Symbols
