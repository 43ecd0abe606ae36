import Mathlib.Data.Set.Finite.Basic
import Mathlib.Order.WellFounded
import Qld.Elf.Values
import Qld.Script.Eval
import Qld.Symbols.Definition

/-!
# What the passes over `--defsym` options compute

The model of `evaluate_defsyms` of `elf/defined.rs`: the expressions are evaluated in passes, so
that a symbol may refer to one whose option comes later.

* `Link`, `Link.context` — what the expressions read after layout;
* `seen`, `pass`, `passes` — one pass over the options, and passes until nothing changes;
* `evaluateDefsyms` — the addresses of all symbols, and which ones are absolute.

An expression may refer to a symbol whose option comes later; every such forward reference takes one
more pass.

* `inOrder`, `DependencyOrder` — the options evaluated so that every symbol follows what it reads;
* `Cut` — the values when chains are followed through so many forward references only;
* `cut_iff` — these are the values that so many passes find;
* `Cut.inOrder_find` — with enough of them, they are those of a dependency order;
* `evaluateDefsyms_iff` — the result is that of evaluating in dependency order just when
  following no more than eight forward references of a chain gives the same.
-/

namespace Qld.Elf.Defsyms

open Qld.Lib Qld.Script

/-! ### What expressions read -/

/-- A section handle: an output section by position, or the image for addresses of the linker's
own, whose section is found later. -/
inductive DefsymSection where
  | output (position : ℕ)
  | image
  deriving DecidableEq, Repr

/-- An output section, as far as expressions see it. -/
structure OutSection where
  name : List UInt8
  addr : ℕ
  lma : ℕ
  size : ℕ
  align : ℕ
  deriving DecidableEq, Repr

/-- The symbols, sections and options of a link that was laid out.  `resolved` gives the section
that stands for an input section of a file, and `sectionShndx` its output section. -/
structure Link where
  lookup : List UInt8 → Option ℕ
  definition : ℕ → Def
  definitionKind : ℕ → Symbols.DefinitionKind
  absoluteFlag : ℕ → Bool
  resolved : ℕ → ℕ → Option ℕ
  sectionShndx : List ℕ
  sections : List OutSection
  maxPageSize : Option ℕ
  commonPageSize : Option ℕ
  /-- The address of every global symbol. -/
  globals : List ℕ

/-- A symbol and its value. -/
abbrev Values := List (ℕ × Value DefsymSection)

/-- The first value recorded for a symbol. -/
def Values.find (values : Values) (id : ℕ) : Option (Value DefsymSection) :=
  (List.find? (fun entry => entry.1 = id) values).map Prod.snd

namespace Link

variable (link : Link)

def sectionVma : DefsymSection → ℕ
  | .output position => (link.sections[position]?).elim 0 OutSection.addr
  | .image => 0

/-- The position of the output section of a name. -/
def positionNamed (name : List UInt8) : Option ℕ :=
  (link.sections.findIdx? fun s => s.name = name).filter fun position => position < 2 ^ 32

def sectionNamed (name : List UInt8) : Except EvalError OutSection :=
  okOrElse ((link.positionNamed name).bind fun p => link.sections[p]?) (.undefinedSection name)

/-- The value of a symbol that no result is known for. -/
def definedValue (id : ℕ) : Value DefsymSection :=
  let address := (link.globals[id]?).getD 0
  match link.definition id with
  | .inSection file index _ =>
    let position := ((link.resolved file index).bind fun s => link.sectionShndx[s]?).bind
      fun shndx => if 0 < shndx ∧ shndx - 1 < link.sections.length then some (shndx - 1) else none
    match position with
    | some position =>
      .relative (.output position) (wrappingSub address (link.sectionVma (.output position)))
    | none => .absolute address
  | .absolute value => .absolute value
  | .linker _ =>
    if link.absoluteFlag id then .absolute address else .relative .image address
  | .common _ | .shared _ => .relative .image address
  | .undefined _ => .absolute 0

/-- A symbol's value: the result so far, or where it is defined. -/
def symbol (values : Values) (name : List UInt8) : Except EvalError (Value DefsymSection) :=
  match link.lookup name with
  | none => .error (.undefinedSymbol name)
  | some id => .ok ((values.find id).getD (link.definedValue id))

/-- What an expression reads, with the results so far. -/
def context (values : Values) : EvalContext (Except EvalError) DefsymSection where
  sectionVma := link.sectionVma
  dot := pure 0
  symbol := link.symbol values
  isDefined name := pure <| (link.lookup name).elim false fun id =>
    link.definitionKind id = .regular ∨ link.definitionKind id = .weak ∨
      link.definitionKind id = .common
  sectionAddr name :=
    okOrElse ((link.positionNamed name).map fun p => .relative (.output p) 0)
      (.undefinedSection name)
  sectionLoadAddr name := (link.sectionNamed name).map OutSection.lma
  sectionSize name :=
    pure (((link.positionNamed name).bind fun p => link.sections[p]?).elim 0 OutSection.size)
  sectionAlignment name := (link.sectionNamed name).map OutSection.align
  maxPageSize := pure (link.maxPageSize.getD 0x1000)
  commonPageSize := pure (link.commonPageSize.getD 0x1000)

end Link

/-! ### Passes -/

/-- A symbol and its assignment; a malformed one has none. -/
abbrev Defsym := ℕ × Option Assignment

/-- The results an expression sees: those of this pass first, then those of the pass before. -/
def seen (next values : Values) : Values :=
  next ++ values.filter fun entry => !next.any fun n => n.1 = entry.1

/-- The value of one assignment: 0 if it is malformed, or cannot be evaluated. -/
def valueOf (link : Link) (values : Values) : Option Assignment → Value DefsymSection
  | some assignment =>
    match evalSymbolAssignment (link.context values) assignment with
    | .ok value => value
    | .error _ => .absolute 0
  | none => .absolute 0

/-- One pass over the options; `next` holds its results so far. -/
def pass (link : Link) (values : Values) : Values → List Defsym → Values
  | next, [] => next
  | next, (id, assignment) :: defsyms =>
    let value := valueOf link (seen next values) assignment
    pass link values (next.filter (fun entry => entry.1 ≠ id) ++ [(id, value)]) defsyms

/-- At most `count` passes, up to one that changes nothing. -/
def passes (link : Link) (defsyms : List Defsym) : ℕ → Values → Values
  | 0, values => values
  | count + 1, values =>
    let next := pass link values [] defsyms
    if next = values then next else passes link defsyms count next

/-- The result: the addresses of the global symbols, and which of them are absolute. -/
structure Evaluated where
  globals : List ℕ
  absoluteFlag : ℕ → Bool

/-- Records the value of one symbol. -/
def Evaluated.store (link : Link) (out : Evaluated) (entry : ℕ × Value DefsymSection) :
    Evaluated where
  globals := out.globals.set entry.1 (entry.2.resolve link.sectionVma)
  absoluteFlag id :=
    if id = entry.1 then
      match entry.2.inSection with
      | .relative _ => false
      | .number | .absolute => true
    else out.absoluteFlag id

/-- Evaluates the expressions after layout. -/
def evaluateDefsyms (link : Link) (defsyms : List Defsym) : Evaluated :=
  (passes link defsyms (min defsyms.length 8 + 1) []).foldl (Evaluated.store link)
    ⟨link.globals, link.absoluteFlag⟩

variable {link : Link} {defsyms : List Defsym} {values next : Values}

/-! ### Recorded values -/

@[simp] theorem find_nil (x : ℕ) : Values.find [] x = none := rfl

theorem find_cons (entry : ℕ × Value DefsymSection) (values : Values) (x : ℕ) :
    Values.find (entry :: values) x = if entry.1 = x then some entry.2 else values.find x := by
  by_cases h : entry.1 = x <;> simp [Values.find, h]

theorem find_append (v w : Values) (x : ℕ) :
    Values.find (v ++ w) x = (v.find x).or (w.find x) := by
  induction v with
  | nil => rfl
  | cons entry v ih =>
    rw [List.cons_append, find_cons, find_cons, ih]
    split <;> rfl

theorem find_filter {p : ℕ → Bool} (v : Values) (x : ℕ) :
    Values.find (v.filter fun entry => p entry.1) x = if p x then v.find x else none := by
  induction v with
  | nil => simp
  | cons entry v ih =>
    rw [List.filter_cons]
    by_cases hx : entry.1 = x
    · subst hx
      by_cases hp : p entry.1 <;> simp [hp, find_cons, ih]
    · by_cases hp : p entry.1 <;> simp [hp, find_cons, hx, ih]

variable {v : Values} {x s n : ℕ}

theorem find_eq_none : v.find x = none ↔ x ∉ v.map Prod.fst := by
  induction v with
  | nil => simp
  | cons entry v ih =>
    rw [find_cons, List.map_cons, List.mem_cons, not_or, ← ih]
    split
    · next h => simp [h]
    · next h => simp [Ne.symm h]

variable {value : Value DefsymSection}

theorem mem_of_find (h : v.find x = some value) : (x, value) ∈ v := by
  induction v with
  | nil => cases h
  | cons entry v ih =>
    rw [find_cons] at h
    split at h
    · next hx =>
      obtain rfl := Option.some.inj h
      subst hx
      exact List.mem_cons_self
    · exact List.mem_cons_of_mem _ (ih h)

theorem find_of_mem (hids : (v.map Prod.fst).Nodup) (h : (x, value) ∈ v) :
    v.find x = some value := by
  induction v with
  | nil => cases h
  | cons entry v ih =>
    rw [List.map_cons, List.nodup_cons] at hids
    rw [find_cons]
    rcases List.mem_cons.mp h with rfl | h
    · rw [if_pos rfl]
    · rw [if_neg, ih hids.2 h]
      rintro rfl
      exact hids.1 (List.mem_map.mpr ⟨_, h, rfl⟩)

theorem find_seen (x : ℕ) : (seen next values).find x = (next.find x).or (values.find x) := by
  rw [seen, find_append,
    find_filter (p := fun id => !next.any fun n => decide (n.1 = id)) values x]
  cases hfind : next.find x with
  | some value => rfl
  | none =>
    have hnone : (next.any fun n => decide (n.1 = x)) = false := by
      rw [List.any_eq_false]
      intro n hn
      simp only [decide_eq_true_eq]
      rintro rfl
      exact find_eq_none.mp hfind (List.mem_map.mpr ⟨n, hn, rfl⟩)
    rw [hnone]
    rfl

/-! ### What an assignment reads -/

/-- The names an assignment reads the values of. -/
def names (assignment : Option Assignment) : List (List UInt8) :=
  assignment.elim [] Assignment.valueSymbols

/-- Whether an assignment reads the value of a symbol. -/
def Reads (link : Link) (assignment : Option Assignment) (id : ℕ) : Prop :=
  ∃ name ∈ names assignment, link.lookup name = some id

/-- **A value depends on the results it reads.** -/
theorem valueOf_congr {w : Values} {assignment : Option Assignment}
    (h : ∀ id, Reads link assignment id → v.find id = w.find id) :
    valueOf link v assignment = valueOf link w assignment := by
  cases assignment with
  | none => rfl
  | some a =>
    have hsymbol : ∀ name ∈ a.valueSymbols, link.symbol v name = link.symbol w name := by
      intro name hname
      unfold Link.symbol
      cases hlookup : link.lookup name with
      | none => rfl
      | some id => simp only [h id ⟨name, hname, hlookup⟩]
    have heval : evalSymbolAssignment (link.context v) a =
        evalSymbolAssignment (link.context w) a := by
      show evalSymbolAssignment { link.context [] with symbol := link.symbol v } a =
        evalSymbolAssignment { link.context [] with symbol := link.symbol w } a
      exact evalSymbolAssignment_congr hsymbol
    simp only [valueOf, heval]

/-! ### Evaluation in dependency order -/

/-- Evaluates the options in the given order. -/
def inOrder (link : Link) : Values → List Defsym → Values
  | values, [] => values
  | values, (id, assignment) :: defsyms =>
    inOrder link (values ++ [(id, valueOf link values assignment)]) defsyms

/-- No option reads its own symbol, or one of a later option. -/
def DependencyOrder (link : Link) (order : List Defsym) : Prop :=
  (∀ d ∈ order, ¬Reads link d.2 d.1) ∧ order.Pairwise fun d e => ¬Reads link d.2 e.1

theorem inOrder_append (values : Values) (l m : List Defsym) :
    inOrder link values (l ++ m) = inOrder link (inOrder link values l) m := by
  induction l generalizing values with
  | nil => rfl
  | cons d l ih => exact ih _

theorem inOrder_ids (values : Values) (order : List Defsym) :
    (inOrder link values order).map Prod.fst = values.map Prod.fst ++ order.map Prod.fst := by
  induction order generalizing values with
  | nil => simp [inOrder]
  | cons d order ih => simp [inOrder, ih]

theorem inOrder_find_of_mem {values : Values} (order : List Defsym) (h : x ∈ values.map Prod.fst) :
    (inOrder link values order).find x = values.find x := by
  induction order generalizing values with
  | nil => rfl
  | cons d order ih =>
    rw [inOrder, ih (by simp [h]), find_append]
    cases hfind : values.find x with
    | none => exact absurd h (find_eq_none.mp hfind)
    | some value => rfl

variable {a : Option Assignment}

/-- **Every symbol has the value of its expression over all results.** -/
theorem inOrder_find {order : List Defsym} (hids : (order.map Prod.fst).Nodup)
    (horder : DependencyOrder link order) (h : (s, a) ∈ order) :
    (inOrder link [] order).find s = some (valueOf link (inOrder link [] order) a) := by
  obtain ⟨before, after, rfl⟩ := List.append_of_mem h
  have hself := horder.1 _ h
  have hlater := (List.pairwise_cons.mp (List.pairwise_append.mp horder.2).2.1).1
  rw [inOrder_append, inOrder]
  have hbefore : (inOrder link ([] : Values) before).map Prod.fst = before.map Prod.fst := by
    simp [inOrder_ids]
  have hs : s ∉ before.map Prod.fst := by
    intro hmem
    rw [List.map_append, List.nodup_append] at hids
    exact hids.2.2 s hmem s (by simp) rfl
  rw [inOrder_find_of_mem after (by simp), find_append, find_eq_none.mpr (hbefore ▸ hs),
    find_cons, if_pos rfl]
  show some _ = some _
  congr 1
  apply valueOf_congr
  intro t ht
  by_cases htBefore : t ∈ before.map Prod.fst
  · have hmem : t ∈ (inOrder link [] before).map Prod.fst := hbefore ▸ htBefore
    rw [inOrder_find_of_mem after (by simp [hmem]), find_append]
    cases hfind : (inOrder link [] before).find t with
    | none => exact absurd hmem (find_eq_none.mp hfind)
    | some value => rfl
  · rw [find_eq_none.mpr (hbefore ▸ htBefore), eq_comm, find_eq_none, inOrder_ids, List.map_append,
      hbefore]
    simp only [List.map_cons, List.map_nil, List.mem_append, List.mem_singleton, not_or]
    refine ⟨⟨htBefore, ?_⟩, ?_⟩
    · rintro rfl
      exact hself ht
    · rintro hmem
      obtain ⟨e, he, rfl⟩ := List.mem_map.mp hmem
      exact hlater e he ht

/-- The results in dependency order, as a solution of the options in their own order. -/
structure Solution (link : Link) (defsyms : List Defsym) (truth : Values) : Prop where
  solves : ∀ s a, (s, a) ∈ defsyms → truth.find s = some (valueOf link truth a)
  others : ∀ x, x ∉ defsyms.map Prod.fst → truth.find x = none

theorem inOrder_solution {order : List Defsym} (hids : (defsyms.map Prod.fst).Nodup)
    (hperm : order.Perm defsyms) (horder : DependencyOrder link order) :
    Solution link defsyms (inOrder link [] order) where
  solves s a h := by
    apply inOrder_find ((hperm.map Prod.fst).nodup_iff.mpr hids) horder
    exact hperm.mem_iff.mpr h
  others x hx := by
    rw [find_eq_none, inOrder_ids]
    simp only [List.map_nil, List.nil_append]
    exact fun h => hx ((hperm.map Prod.fst).mem_iff.mp h)

/-! ### Passes -/

theorem pass_append (next : Values) (l m : List Defsym) :
    pass link values next (l ++ m) = pass link values (pass link values next l) m := by
  induction l generalizing next with
  | nil => rfl
  | cons d l ih => exact ih _

/-- A pass leaves the results of other symbols alone. -/
theorem pass_find_of_notMem (next : Values) (todo : List Defsym) (h : x ∉ todo.map Prod.fst) :
    (pass link values next todo).find x = next.find x := by
  induction todo generalizing next with
  | nil => rfl
  | cons d todo ih =>
    simp only [List.map_cons, List.mem_cons, not_or] at h
    rw [pass, ih _ h.2, find_append, find_filter (p := fun id => decide (id ≠ d.1)) next x,
      find_cons, if_neg (Ne.symm h.1)]
    simp [h.1]

theorem pass_ids (todo : List Defsym) (next : Values)
    (hids : (next.map Prod.fst ++ todo.map Prod.fst).Nodup) :
    (pass link values next todo).map Prod.fst = next.map Prod.fst ++ todo.map Prod.fst := by
  induction todo generalizing next with
  | nil => simp [pass]
  | cons d todo ih =>
    have hkeep : (next.filter fun entry => decide (entry.1 ≠ d.1)) = next := by
      rw [List.filter_eq_self]
      intro entry hentry
      rw [List.nodup_append] at hids
      have hne := hids.2.2 entry.1 (List.mem_map.mpr ⟨entry, hentry, rfl⟩) d.1 (by simp)
      exact decide_eq_true hne
    rw [pass, hkeep, ih]
    · simp
    · simpa using hids

/-- Stopping at a pass that changes nothing is not stopping early. -/
theorem passes_eq (count : ℕ) (values : Values) :
    passes link defsyms count values =
      (fun v => pass link v [] defsyms)^[count] values := by
  induction count generalizing values with
  | zero => rfl
  | succ count ih =>
    rw [passes, Function.iterate_succ_apply]
    show (if pass link values [] defsyms = values then _ else _) = _
    split
    · next h => rw [h, Function.iterate_fixed h]
    · exact ih _

theorem exists_find : (∃ value, v.find x = some value) ↔ x ∈ v.map Prod.fst := by
  rw [← Option.isSome_iff_exists, Option.isSome_iff_ne_none, ne_eq, find_eq_none, not_not]

/-- The results after a number of passes. -/
def rounds (link : Link) (defsyms : List Defsym) (count : ℕ) : Values :=
  (fun v => pass link v [] defsyms)^[count] []

theorem rounds_succ (count : ℕ) :
    rounds link defsyms (count + 1) = pass link (rounds link defsyms count) [] defsyms :=
  Function.iterate_succ_apply' _ _ _

theorem rounds_find_of_notMem (count : ℕ) (h : x ∉ defsyms.map Prod.fst) :
    (rounds link defsyms count).find x = none := by
  cases count with
  | zero => rfl
  | succ count => rw [rounds_succ, pass_find_of_notMem _ _ h, find_nil]

section

variable (hids : (defsyms.map Prod.fst).Nodup)

include hids

theorem rounds_ids (count : ℕ) :
    (rounds link defsyms (count + 1)).map Prod.fst = defsyms.map Prod.fst := by
  rw [rounds_succ, pass_ids _ _ (by simpa using hids)]
  rfl

variable {before after : List Defsym} (hsplit : defsyms = before ++ (s, a) :: after)

include hsplit

theorem notMem_of_split : s ∉ before.map Prod.fst ∧ s ∉ after.map Prod.fst ∧
    ∀ t ∈ before.map Prod.fst, t ∉ s :: after.map Prod.fst := by
  rw [hsplit, List.map_append, List.map_cons, List.nodup_append, List.nodup_cons] at hids
  refine ⟨fun h => hids.2.2 s h s List.mem_cons_self rfl, hids.2.1.1, ?_⟩
  exact fun t ht hlater => hids.2.2 t ht t hlater rfl

theorem pass_find : (pass link values [] defsyms).find s =
    some (valueOf link (seen (pass link values [] before) values) a) := by
  rw [hsplit, pass_append, pass, pass_find_of_notMem _ _ (notMem_of_split hids hsplit).2.1,
    find_append, find_filter (p := fun id => decide (id ≠ s)) _ s, find_cons, if_pos rfl]
  simp

/-- What the expression of an option reads: for the symbols of earlier options what this pass finds,
for the others what the pass before found. -/
theorem find_seen_pass (t : ℕ) : (seen (pass link values [] before) values).find t =
    if t ∈ before.map Prod.fst then (pass link values [] defsyms).find t else values.find t := by
  have hnodup : (before.map Prod.fst).Nodup := by
    rw [hsplit, List.map_append, List.nodup_append] at hids
    exact hids.1
  rw [find_seen]
  split
  · next ht =>
    have hstable : (pass link values [] defsyms).find t =
        (pass link values [] before).find t := by
      rw [hsplit, pass_append, pass_find_of_notMem]
      exact (notMem_of_split hids hsplit).2.2 t ht
    obtain ⟨w, hw⟩ : ∃ w, (pass link values [] before).find t = some w := by
      rw [exists_find, pass_ids _ _ (by simpa using hnodup)]
      simpa using ht
    rw [hstable, hw, Option.some_or]
  · next ht => rw [pass_find_of_notMem _ _ ht, find_nil, Option.none_or]

end

/-! ### Acyclic references -/

/-- Symbol `s` refers to symbol `t`, both of an option. -/
def Refers (link : Link) (defsyms : List Defsym) (s t : ℕ) : Prop :=
  (∃ a, (s, a) ∈ defsyms ∧ Reads link a t) ∧ t ∈ defsyms.map Prod.fst

/-- No symbol refers to itself, directly or through others. -/
def Acyclic (link : Link) (defsyms : List Defsym) : Prop :=
  ∀ s, ¬Relation.TransGen (Refers link defsyms) s s

/-- Among options that refer to each other acyclically, one refers to none. -/
theorem Acyclic.exists_first (h : Acyclic link defsyms) (hne : defsyms ≠ []) :
    ∃ d ∈ defsyms, ∀ e ∈ defsyms, ¬Reads link d.2 e.1 := by
  by_contra hall
  push Not at hall
  let ids := {s // s ∈ defsyms.map Prod.fst}
  let below : ids → ids → Prop := fun t s => Relation.TransGen (Refers link defsyms) s.1 t.1
  have : Finite ids := Set.Finite.to_subtype (List.finite_toSet (defsyms.map Prod.fst))
  have : IsTrans ids below := ⟨fun _ _ _ h₁ h₂ => Relation.TransGen.trans h₂ h₁⟩
  have : Std.Irrefl below := ⟨fun s => h s.1⟩
  have hwf : WellFounded below := Finite.wellFounded_of_trans_of_irrefl below
  obtain ⟨d, hd⟩ := List.exists_mem_of_ne_nil _ hne
  obtain ⟨s, -, hs⟩ := hwf.has_min Set.univ
    ⟨⟨d.1, List.mem_map.mpr ⟨d, hd, rfl⟩⟩, Set.mem_univ _⟩
  obtain ⟨e, he, hes⟩ := List.mem_map.mp s.2
  obtain ⟨f, hf, hread⟩ := hall e he
  have hmem : f.1 ∈ defsyms.map Prod.fst := List.mem_map.mpr ⟨f, hf, rfl⟩
  apply hs ⟨f.1, hmem⟩ (Set.mem_univ _)
  exact .single ⟨⟨e.2, hes ▸ he, hread⟩, hmem⟩

/-- **Acyclic references can be put in dependency order.** -/
theorem Acyclic.exists_order (h : Acyclic link defsyms) :
    ∃ order : List Defsym, order.Perm defsyms ∧ DependencyOrder link order := by
  induction hlen : defsyms.length generalizing defsyms with
  | zero =>
    rw [List.length_eq_zero_iff] at hlen
    subst hlen
    exact ⟨[], .nil, by simp, .nil⟩
  | succ len ih =>
    have hne : defsyms ≠ [] := by
      rintro rfl
      cases hlen
    obtain ⟨d, hd, hfirst⟩ := h.exists_first hne
    obtain ⟨before, after, rfl⟩ := List.append_of_mem hd
    have hrest : Acyclic link (before ++ after) := by
      intro s hcycle
      apply h s
      refine Relation.TransGen.mono (r := Refers link (before ++ after)) ?_ s s hcycle
      rintro x y ⟨⟨a, ha, hread⟩, hy⟩
      refine ⟨⟨a, ?_, hread⟩, ?_⟩
      · simp only [List.mem_append, List.mem_cons] at ha ⊢
        tauto
      · simp only [List.map_append, List.map_cons, List.mem_append, List.mem_cons] at hy ⊢
        tauto
    obtain ⟨order, hperm, horder⟩ := ih hrest (by simp at hlen ⊢; omega)
    refine ⟨d :: order, (hperm.cons d).trans List.perm_middle.symm, ?_, ?_⟩
    · intro e he
      rcases List.mem_cons.mp he with rfl | he
      · exact hfirst _ hd
      · exact horder.1 e he
    · refine List.pairwise_cons.mpr ⟨fun e he => hfirst e ?_, horder.2⟩
      have := hperm.mem_iff.mp he
      simp only [List.mem_append, List.mem_cons] at this ⊢
      tauto

/-! ### Chains of references -/

/-- `Cut link defsyms n s v`: symbol `s` has value `v` when at most `n` references to a later option
are followed along a chain of references.  With `n` left, the expression of `s` reads `known`: for
the symbols of earlier options their values with `n` left, for those of later ones their values with
`n - 1` left; with none left, a symbol of a later option is read as it was before evaluation. -/
inductive Cut (link : Link) (defsyms : List Defsym) : ℕ → ℕ → Value DefsymSection → Prop
  | value {n s : ℕ} {a : Option Assignment} {before after : List Defsym} {known : Values} :
      defsyms = before ++ (s, a) :: after →
      (∀ t, Reads link a t → (t ∈ known.map Prod.fst ↔
        t ∈ before.map Prod.fst ∨ 0 < n ∧ t ∈ after.map Prod.fst)) →
      (∀ t v, Reads link a t → t ∈ before.map Prod.fst → known.find t = some v →
        Cut link defsyms n t v) →
      (∀ t v, Reads link a t → t ∈ after.map Prod.fst → 0 < n → known.find t = some v →
        Cut link defsyms (n - 1) t v) →
      Cut link defsyms n s (valueOf link known a)

/-- The symbols that an option may read, by where their options stand. -/
theorem mem_ids_of_reads {before after : List Defsym} (hself : ∀ d ∈ defsyms, ¬Reads link d.2 d.1)
    (hsplit : defsyms = before ++ (s, a) :: after) {t : ℕ} (ht : Reads link a t) :
    t ∈ defsyms.map Prod.fst ↔ t ∈ before.map Prod.fst ∨ t ∈ after.map Prod.fst := by
  have hne : t ≠ s := by
    rintro rfl
    exact hself (t, a) (by simp [hsplit]) ht
  rw [hsplit, List.map_append, List.map_cons, List.mem_append, List.mem_cons]
  tauto

section

variable (hids : (defsyms.map Prod.fst).Nodup) (hself : ∀ d ∈ defsyms, ¬Reads link d.2 d.1)

include hids hself

/-- One pass more than there are forward references to follow finds the value. -/
theorem Cut.rounds_find (h : Cut link defsyms n s value) :
    (rounds link defsyms (n + 1)).find s = some value := by
  induction h with
  | @value n s a before after known hsplit hknown _ _ ihBefore ihAfter =>
    rw [rounds_succ, pass_find hids hsplit]
    show some _ = some _
    congr 1
    apply valueOf_congr
    intro t ht
    rw [find_seen_pass hids hsplit]
    split
    · next htBefore =>
      obtain ⟨w, hw⟩ := exists_find.mpr ((hknown t ht).mpr (.inl htBefore))
      rw [hw, ← rounds_succ]
      exact ihBefore t w ht htBefore hw
    · next htBefore =>
      cases hw : known.find t with
      | some w =>
        rcases (hknown t ht).mp (exists_find.mp ⟨w, hw⟩) with h | ⟨hn, htAfter⟩
        · exact absurd h htBefore
        have hround := ihAfter t w ht htAfter hn hw
        rwa [Nat.sub_add_cancel hn] at hround
      | none =>
        rw [find_eq_none, hknown t ht, not_or, not_and] at hw
        rcases Nat.eq_zero_or_pos n with rfl | hn
        · rfl
        apply rounds_find_of_notMem
        rw [mem_ids_of_reads hself hsplit ht]
        exact not_or.mpr ⟨hw.1, hw.2 hn⟩

/-- What a pass finds is the value with so many forward references followed. -/
theorem cut_of_rounds_find (h : (rounds link defsyms (n + 1)).find s = some value) :
    Cut link defsyms n s value := by
  induction n using Nat.strong_induction_on generalizing s value with
  | _ n ih =>
    -- By induction on the position of the option, for the references to earlier ones.
    have hposition : ∀ (len : ℕ) (before after : List Defsym) (s : ℕ) (a : Option Assignment)
        (value : Value DefsymSection), before.length = len → defsyms = before ++ (s, a) :: after →
        (rounds link defsyms (n + 1)).find s = some value → Cut link defsyms n s value := by
      intro len
      induction len using Nat.strong_induction_on with
      | _ len ihLen =>
        intro before after s a value hlen hsplit hfind
        rw [rounds_succ, pass_find hids hsplit] at hfind
        obtain rfl := Option.some.inj hfind
        refine .value hsplit ?_ ?_ ?_
        · intro t ht
          rw [← exists_find, find_seen_pass hids hsplit]
          split
          · next htBefore =>
            rw [exists_find, ← rounds_succ, rounds_ids hids, mem_ids_of_reads hself hsplit ht]
            simp [htBefore]
          · next htBefore =>
            rw [exists_find]
            cases n with
            | zero => simp [rounds, htBefore]
            | succ n =>
              rw [rounds_ids hids, mem_ids_of_reads hself hsplit ht]
              simp [htBefore]
        · intro t w ht htBefore hw
          rw [find_seen_pass hids hsplit, if_pos htBefore, ← rounds_succ] at hw
          obtain ⟨d, hd, rfl⟩ := List.mem_map.mp htBefore
          obtain ⟨b₁, b₂, rfl⟩ := List.append_of_mem hd
          refine ihLen b₁.length ?_ b₁ (b₂ ++ (s, a) :: after) d.1 d.2 w rfl ?_ hw
          · simp only [← hlen, List.length_append, List.length_cons]
            omega
          · simp [hsplit]
        · intro t w ht htAfter hn hw
          have htBefore : t ∉ before.map Prod.fst := fun hmem =>
            (notMem_of_split hids hsplit).2.2 t hmem (List.mem_cons_of_mem _ htAfter)
          rw [find_seen_pass hids hsplit, if_neg htBefore] at hw
          apply ih (n - 1) (by omega)
          rwa [Nat.sub_add_cancel hn]
    have hs : s ∈ defsyms.map Prod.fst := by
      have hids' : (rounds link defsyms (n + 1)).map Prod.fst = _ := rounds_ids hids n
      rw [← hids']
      exact exists_find.mp ⟨value, h⟩
    obtain ⟨d, hd, rfl⟩ := List.mem_map.mp hs
    obtain ⟨before, after, hsplit⟩ := List.append_of_mem hd
    exact hposition _ before after d.1 d.2 value rfl hsplit h

/-- **How many forward references the passes follow.** -/
theorem cut_iff :
    Cut link defsyms n s value ↔ (rounds link defsyms (n + 1)).find s = some value :=
  ⟨Cut.rounds_find hids hself, cut_of_rounds_find hids hself⟩

theorem exists_cut (n : ℕ) (hs : s ∈ defsyms.map Prod.fst) : ∃ v, Cut link defsyms n s v := by
  have hids' : (rounds link defsyms (n + 1)).map Prod.fst = _ := rounds_ids hids n
  rw [← hids'] at hs
  obtain ⟨v, hv⟩ := exists_find.mpr hs
  exact ⟨v, cut_of_rounds_find hids hself hv⟩

end

/-- In a dependency order, what an option reads stands before it. -/
theorem DependencyOrder.earlier {order before after : List Defsym} {t : ℕ}
    (horder : DependencyOrder link order) (hsplit : order = before ++ (s, a) :: after)
    (hread : Reads link a t) (ht : t ∈ order.map Prod.fst) :
    ∃ (b₁ b₂ : List Defsym) (b : Option Assignment), before = b₁ ++ (t, b) :: b₂ := by
  obtain ⟨e, he, rfl⟩ := List.mem_map.mp ht
  rw [hsplit] at he
  rcases List.mem_append.mp he with he | he
  · obtain ⟨b₁, b₂, rfl⟩ := List.append_of_mem he
    exact ⟨b₁, b₂, e.2, rfl⟩
  rcases List.mem_cons.mp he with rfl | he
  · exact absurd hread (horder.1 (s, a) (by simp [hsplit]))
  · have hlater := (List.pairwise_append.mp (hsplit ▸ horder.2)).2.1
    exact absurd hread ((List.pairwise_cons.mp hlater).1 e he)

section

variable {order : List Defsym} (hids : (defsyms.map Prod.fst).Nodup)
  (hperm : order.Perm defsyms) (horder : DependencyOrder link order)

include hids hperm horder

/-- A symbol at position `p` of a dependency order has its value once `p` forward references are
followed: each symbol it reads stands at an earlier position. -/
theorem Cut.find_of_position (h : Cut link defsyms n s value) :
    ∀ {before after : List Defsym} {b : Option Assignment}, order = before ++ (s, b) :: after →
      before.length ≤ n → (inOrder link [] order).find s = some value := by
  have htruth := inOrder_solution hids hperm horder
  have hnodup : (order.map Prod.fst).Nodup := (hperm.map Prod.fst).nodup_iff.mpr hids
  have hself : ∀ d ∈ defsyms, ¬Reads link d.2 d.1 := fun d hd =>
    horder.1 d (hperm.mem_iff.mpr hd)
  induction h with
  | @value n s a before after known hsplit hknown _ _ ihBefore ihAfter =>
    intro b₁ b₂ b horderSplit hn
    have hmem : (s, a) ∈ defsyms := by simp [hsplit]
    have hsame : (s, a) = (s, b) :=
      List.inj_on_of_nodup_map hnodup (hperm.mem_iff.mpr hmem) (by simp [horderSplit]) rfl
    obtain rfl := (Prod.mk.inj hsame).2
    rw [htruth.solves s a hmem]
    congr 1
    apply valueOf_congr
    intro t ht
    by_cases hdefsym : t ∈ defsyms.map Prod.fst
    · have hmemOrder := (hperm.map Prod.fst).mem_iff.mpr hdefsym
      obtain ⟨c₁, c₂, c, rfl⟩ := horder.earlier horderSplit ht hmemOrder
      have hpos : c₁.length < n := by
        rw [List.length_append, List.length_cons] at hn
        omega
      have hposition : order = c₁ ++ (t, c) :: (c₂ ++ (s, a) :: b₂) := by simp [horderSplit]
      rcases (mem_ids_of_reads hself hsplit ht).mp hdefsym with htBefore | htAfter
      · obtain ⟨w, hw⟩ := exists_find.mpr ((hknown t ht).mpr (.inl htBefore))
        rw [hw]
        exact ihBefore t w ht htBefore hw hposition hpos.le
      · obtain ⟨w, hw⟩ := exists_find.mpr ((hknown t ht).mpr (.inr ⟨by omega, htAfter⟩))
        rw [hw]
        exact ihAfter t w ht htAfter (by omega) hw hposition (by omega)
    · rw [htruth.others t hdefsym, eq_comm, find_eq_none, hknown t ht]
      rw [mem_ids_of_reads hself hsplit ht] at hdefsym
      tauto

/-- **With enough forward references followed, the value is that of dependency order.** -/
theorem Cut.inOrder_find (hn : defsyms.length ≤ n) (h : Cut link defsyms n s value) :
    (inOrder link [] order).find s = some value := by
  have hs : s ∈ defsyms.map Prod.fst := by
    cases h with
    | value hsplit _ _ _ => simp [hsplit]
  obtain ⟨d, hd, rfl⟩ := List.mem_map.mp ((hperm.map Prod.fst).mem_iff.mpr hs)
  obtain ⟨before, after, hsplit⟩ := List.append_of_mem hd
  apply h.find_of_position hids hperm horder hsplit
  rw [← hperm.length_eq, hsplit, List.length_append, List.length_cons] at hn
  omega

end

/-! ### The result -/

/-- The result has a symbol's value: its address, and whether it is absolute. -/
structure Gives (link : Link) (out : Evaluated) (id : ℕ) (value : Value DefsymSection) : Prop where
  address : id < link.globals.length → out.globals[id]? = some (value.resolve link.sectionVma)
  absolute : out.absoluteFlag id = true ↔ ∀ s, value.inSection ≠ .relative s

/-- The result is that of evaluating the options in dependency order. -/
def Agrees (link : Link) (defsyms : List Defsym) : Prop :=
  ∀ order : List Defsym, order.Perm defsyms → DependencyOrder link order →
    ∀ id value, (id, value) ∈ inOrder link [] order →
      Gives link (evaluateDefsyms link defsyms) id value

theorem store_of_notMem (link : Link) (l : Values) (hx : x ∉ l.map Prod.fst) (out : Evaluated) :
    (l.foldl (Evaluated.store link) out).globals[x]? = out.globals[x]? ∧
      (l.foldl (Evaluated.store link) out).absoluteFlag x = out.absoluteFlag x := by
  induction l generalizing out with
  | nil => exact ⟨rfl, rfl⟩
  | cons entry l ih =>
    simp only [List.map_cons, List.mem_cons, not_or] at hx
    obtain ⟨haddress, habsolute⟩ := ih hx.2 (out.store link entry)
    rw [List.foldl_cons, haddress, habsolute]
    refine ⟨?_, ?_⟩
    · rw [Evaluated.store, List.getElem?_set_ne (Ne.symm hx.1)]
    · show (if x = entry.1 then _ else out.absoluteFlag x) = _
      rw [if_neg hx.1]

theorem store_gives {l : Values} (hids : (l.map Prod.fst).Nodup) {id : ℕ} (h : (id, value) ∈ l)
    (out : Evaluated) (hlen : out.globals.length = link.globals.length) :
    Gives link (l.foldl (Evaluated.store link) out) id value := by
  induction l generalizing out with
  | nil => cases h
  | cons entry l ih =>
    rw [List.map_cons, List.nodup_cons] at hids
    rcases List.mem_cons.mp h with rfl | h
    · obtain ⟨haddress, habsolute⟩ :=
        store_of_notMem link l hids.1 (out.store link (id, value))
      refine ⟨?_, ?_⟩
      · intro hid
        rw [List.foldl_cons, haddress, Evaluated.store]
        exact List.getElem?_set_self (hlen ▸ hid)
      · rw [List.foldl_cons, habsolute, Evaluated.store]
        simp only [if_true]
        cases value.inSection with
        | relative s => simp
        | number => simp
        | absolute => simp
    · exact ih hids.2 h (out.store link entry) (by rw [Evaluated.store, List.length_set, hlen])

/-- Two values give a symbol the same result. -/
structure Same (link : Link) (id : ℕ) (v w : Value DefsymSection) : Prop where
  address : id < link.globals.length → v.resolve link.sectionVma = w.resolve link.sectionVma
  absolute : (∀ s, v.inSection ≠ .relative s) ↔ ∀ s, w.inSection ≠ .relative s

theorem Gives.iff_same {out : Evaluated} {id : ℕ} {v w : Value DefsymSection}
    (h : Gives link out id v) : Gives link out id w ↔ Same link id v w := by
  refine ⟨fun hw => ⟨fun hid => ?_, h.absolute.symm.trans hw.absolute⟩,
    fun hsame => ⟨fun hid => ?_, h.absolute.trans hsame.absolute⟩⟩
  · exact Option.some.inj ((h.address hid).symm.trans (hw.address hid))
  · rw [h.address hid, hsame.address hid]

/-- The result has the values that at most eight forward references lead to. -/
theorem evaluateDefsyms_gives (hids : (defsyms.map Prod.fst).Nodup)
    (hself : ∀ d ∈ defsyms, ¬Reads link d.2 d.1)
    (h : Cut link defsyms (min defsyms.length 8) s value) :
    Gives link (evaluateDefsyms link defsyms) s value := by
  rw [evaluateDefsyms, passes_eq]
  apply store_gives (by rw [← rounds, rounds_ids hids]; exact hids) _ _ rfl
  exact mem_of_find (h.rounds_find hids hself)

/-- **When the passes suffice (proved).**  The result is that of dependency order if and only if
every symbol gets the same with at most eight forward references of a chain followed as with all of
them. -/
theorem evaluateDefsyms_iff (hids : (defsyms.map Prod.fst).Nodup)
    (hacyclic : Acyclic link defsyms) :
    Agrees link defsyms ↔ ∀ s v w, Cut link defsyms 8 s v →
      Cut link defsyms defsyms.length s w → Same link s v w := by
  obtain ⟨order, hperm, horder⟩ := hacyclic.exists_order
  have hself : ∀ d ∈ defsyms, ¬Reads link d.2 d.1 := fun d hd =>
    horder.1 d (hperm.mem_iff.mpr hd)
  have hmem : ∀ {n s v}, Cut link defsyms n s v → s ∈ defsyms.map Prod.fst := by
    rintro n s v ⟨hsplit, -, -, -⟩
    simp [hsplit]
  -- Up to eight options, the passes follow all forward references.
  have hgives : ∀ s v, Cut link defsyms 8 s v → Gives link (evaluateDefsyms link defsyms) s v := by
    intro s v hcut
    apply evaluateDefsyms_gives hids hself
    rcases le_total defsyms.length 8 with hlen | hlen
    · rw [min_eq_left hlen]
      obtain ⟨w, hw⟩ := exists_cut hids hself defsyms.length (hmem hcut)
      have htruth := hcut.inOrder_find hids hperm horder hlen
      rw [hw.inOrder_find hids hperm horder le_rfl] at htruth
      rwa [← Option.some.inj htruth]
    · rwa [min_eq_right hlen]
  refine ⟨?_, ?_⟩
  · intro hagrees s v w hv hw
    have hfind := hw.inOrder_find hids hperm horder le_rfl
    exact (hgives s v hv).iff_same.mp (hagrees order hperm horder s w (mem_of_find hfind))
  · intro hsame order hperm horder id value hvalue
    have hnodup : ((inOrder link [] order).map Prod.fst).Nodup := by
      simpa [inOrder_ids] using (hperm.map Prod.fst).nodup_iff.mpr hids
    have hid : id ∈ defsyms.map Prod.fst := by
      have hmem : id ∈ (inOrder link [] order).map Prod.fst := List.mem_map.mpr ⟨_, hvalue, rfl⟩
      rw [inOrder_ids] at hmem
      exact (hperm.map Prod.fst).mem_iff.mp (by simpa using hmem)
    obtain ⟨v, hv⟩ := exists_cut hids hself 8 hid
    obtain ⟨w, hw⟩ := exists_cut hids hself defsyms.length hid
    have hfind := hw.inOrder_find hids hperm horder le_rfl
    rw [find_of_mem hnodup hvalue] at hfind
    obtain rfl := Option.some.inj hfind
    exact (hgives id v hv).iff_same.mpr (hsame id v value hv hw)

/-! ### Examples -/

instance (link : Link) (assignment : Option Assignment) (id : ℕ) :
    Decidable (Reads link assignment id) :=
  inferInstanceAs (Decidable (∃ name ∈ names assignment, link.lookup name = some id))

theorem acyclic_of_lt (h : ∀ d ∈ defsyms, ∀ t ∈ defsyms.map Prod.fst,
    Reads link d.2 t → d.1 < t) : Acyclic link defsyms := by
  have hlt : ∀ s t, Relation.TransGen (Refers link defsyms) s t → s < t := by
    intro s t hpath
    induction hpath with
    | single hrefers =>
      obtain ⟨⟨a, ha, hread⟩, ht⟩ := hrefers
      exact h _ ha _ ht hread
    | tail _ hrefers ih =>
      obtain ⟨⟨a, ha, hread⟩, ht⟩ := hrefers
      exact ih.trans (h _ ha _ ht hread)
  exact fun s hcycle => (hlt s s hcycle).false

/-- Ten symbols `a` to `j` of the linker's own. -/
def tenLink : Link where
  lookup name :=
    match name with
    | [b] => if 97 ≤ b.toNat ∧ b.toNat < 107 then some (b.toNat - 97) else none
    | _ => none
  definition id := .linker id
  definitionKind _ := .regular
  absoluteFlag _ := true
  resolved _ _ := none
  sectionShndx := []
  sections := []
  maxPageSize := none
  commonPageSize := none
  globals := List.replicate 10 0

/-- `--defsym a=b --defsym b=c`, and so on for `length` symbols, with a number as the last one. -/
def chainDefsyms (length last : ℕ) : List Defsym :=
  (List.range length).map fun i =>
    (i, some ⟨[UInt8.ofNat (97 + i)], .assign,
      if i + 1 < length then .symbol [UInt8.ofNat (98 + i)] else .number last, .normal⟩)

/-- Ten options in a chain whose last one is 0: all values are 0, also before their turn. -/
theorem Cut.eq_zero (h : Cut tenLink (chainDefsyms 10 0) n s value) : value = .absolute 0 := by
  induction h with
  | @value n s a before after known hsplit hknown _ _ ihBefore ihAfter =>
    have hd : (s, a) ∈ chainDefsyms 10 0 := by simp [hsplit]
    have hreads : ∀ d ∈ chainDefsyms 10 0, ∀ name ∈ names d.2,
        tenLink.lookup name = some (d.1 + 1) := by decide
    have hvalues : ∀ d ∈ chainDefsyms 10 0, valueOf tenLink [] d.2 = .absolute 0 ∧
        valueOf tenLink [(d.1 + 1, .absolute 0)] d.2 = .absolute 0 := by decide
    have hnext : ∀ t, Reads tenLink a t → t = s + 1 := by
      rintro t ⟨name, hname, hlookup⟩
      exact Option.some.inj (hlookup.symm.trans (hreads _ hd name hname))
    cases hw : known.find (s + 1) with
    | none =>
      rw [← (hvalues _ hd).1]
      apply valueOf_congr
      intro t ht
      rw [hnext t ht, hw, find_nil]
    | some w =>
      rw [← (hvalues _ hd).2]
      apply valueOf_congr
      intro t ht
      obtain rfl := hnext t ht
      rw [find_cons, if_pos rfl, hw]
      rcases (hknown _ ht).mp (exists_find.mp ⟨w, hw⟩) with hbefore | ⟨hn, hafter⟩
      · rw [ihBefore _ w ht hbefore hw]
      · rw [ihAfter _ w ht hafter hn hw]

/-- With 0 as the last one, ten options in a chain get their values, although nine of them refer to
a later one. -/
theorem agrees_ten_zero : Agrees tenLink (chainDefsyms 10 0) := by
  have hids : ((chainDefsyms 10 0).map Prod.fst).Nodup := by decide
  have hacyclic : Acyclic tenLink (chainDefsyms 10 0) := acyclic_of_lt (by decide)
  refine (evaluateDefsyms_iff hids hacyclic).mpr fun s v w hv hw => ?_
  rw [hv.eq_zero, hw.eq_zero]
  exact ⟨fun _ => rfl, .rfl⟩

/-- With 5 as the last one they do not: the first symbol gets 0, and not 5. -/
theorem not_agrees_ten : ((chainDefsyms 10 5).map Prod.fst).Nodup ∧
    Acyclic tenLink (chainDefsyms 10 5) ∧ ¬Agrees tenLink (chainDefsyms 10 5) := by
  refine ⟨by decide, acyclic_of_lt (by decide), ?_⟩
  intro hagrees
  have horder : DependencyOrder tenLink (chainDefsyms 10 5).reverse := ⟨by decide, by decide⟩
  have hvalue : (0, Value.absolute 5) ∈ inOrder tenLink [] (chainDefsyms 10 5).reverse := by decide
  have haddress := (hagrees _ (List.reverse_perm _) horder 0 _ hvalue).address (by decide)
  have hzero : (evaluateDefsyms tenLink (chainDefsyms 10 5)).globals[0]? = some 0 := by decide
  rw [hzero] at haddress
  exact absurd haddress (by decide)

end Qld.Elf.Defsyms
