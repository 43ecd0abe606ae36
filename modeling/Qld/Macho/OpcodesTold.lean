import Qld.Macho.OpcodesRun

/-!
# Opcodes and fixups

* `Tells` — what the streams have done so far; `addFixup_spec`, `addFixups_spec` — what
  one fixup adds, and all of them;
* `Told` — the streams rebase and bind every fixup once, where it is and as it says;
* `Streamed.told` — they do.
-/

namespace Qld.Macho

open Qld.Lib Read

variable {layout : Layout} {imports : List Import} {weakTargets : List (Option ℕ)}

/-! ### One fixup -/

/-- An import that dyld looks for in all images. -/
def Import.weakLookup (m : Import) : Prop := m.ordinal = BIND_SPECIAL_DYLIB_WEAK_LOOKUP

instance (m : Import) : Decidable m.weakLookup :=
  inferInstanceAs (Decidable (m.ordinal = BIND_SPECIAL_DYLIB_WEAK_LOOKUP))

/-- The rebase of a fixup. -/
def rebasingOf (imports : List Import) (x : Located) : Option Rebasing :=
  match x.fixup.kind with
  | .rebase _ => some ⟨REBASE_TYPE_POINTER, x.segment, x.offset⟩
  | .bind symbol _ => imports[symbol]?.bind fun m =>
      if m.weakLookup then some ⟨REBASE_TYPE_POINTER, x.segment, x.offset⟩ else none

/-- The bind of a fixup. -/
def bindingOf (imports : List Import) (x : Located) : Option Binding :=
  match x.fixup.kind with
  | .rebase _ => none
  | .bind symbol addend => imports[symbol]?.bind fun m =>
      if m.weakLookup then none
      else some ⟨BIND_TYPE_POINTER, x.segment, x.offset, m.ordinal, m.name, m.flags, addend⟩

/-- The weak bind of a fixup. -/
def weakEntryOf (imports : List Import) (x : Located) : Option WeakEntry :=
  match x.fixup.kind with
  | .rebase _ => none
  | .bind symbol addend => imports[symbol]?.bind fun m =>
      if m.weakLookup then some ⟨m.name, x.segment, x.offset, addend⟩ else none

/-- The word that a pointer gets in the image. -/
def IsWord (imports : List Import) (weakTargets : List (Option ℕ)) (f : Fixup) (word : ℕ) : Prop :=
  match f.kind with
  | .rebase target => word = target
  | .bind symbol addend => ∃ m, imports[symbol]? = some m ∧
      if m.weakLookup then
        ∃ target, weakTargets[symbol]? = some (some target) ∧ word = (target + asU64 addend) % 2 ^ 64
      else word = 0

/-- The streams so far have done this. -/
structure Tells (imports : List Import) (s : Streams) (rebasings : List Rebasing)
    (bindings : List Binding) : Prop where
  rebase : ∃ r, RebaseEmits s.rebase ⟨0, 0, 0⟩ rebasings r ∧
    (s.rebaseStarted = true → r.kind = REBASE_TYPE_POINTER)
  bind : ∃ r, Emits s.bind .start bindings r ∧ Holds imports s.current r

variable {s s' : Streams} {x : Located} {rebasings : List Rebasing} {bindings : List Binding}

theorem rebaseAt_spec {target : ℕ} (hsegment : x.segment < 16) (hoffset : x.offset < 2 ^ 64)
    (htells : Tells imports s rebasings bindings) (h : rebaseAt s x target = .ok s') :
    Tells imports s' (rebasings ++ [⟨REBASE_TYPE_POINTER, x.segment, x.offset⟩]) bindings ∧
      s'.weak = s.weak ∧ putLe 8 s.image x.file target = some s'.image := by
  obtain ⟨image, himage, h⟩ := bind_eq_ok.mp h
  obtain rfl := Except.ok.inj h
  refine ⟨⟨?_, htells.bind⟩, rfl, okOrElse_eq_ok.mp himage⟩
  obtain ⟨r, hemits, hkind⟩ := htells.rebase
  have hstart : RebaseEmits (if s.rebaseStarted then []
      else [opcode REBASE_OPCODE_SET_TYPE_IMM REBASE_TYPE_POINTER]) r []
      { r with kind := REBASE_TYPE_POINTER } := by
    split
    · next hstarted =>
      rw [← hkind hstarted]
      exact .nil r
    · exact rebaseEmits_type r
  have hall := ((hemits.append hstart).append (rebaseEmits_place hsegment hoffset _)).append
    (rebaseEmits_once _)
  rw [List.append_nil, List.append_nil, ← List.append_assoc _ _ (pushUleb x.offset)] at hall
  exact ⟨_, hall, fun _ => rfl⟩

variable {symbol : ℕ} {m : Import} {addend : ℤ}

theorem bindAt_spec (hsegment : x.segment < 16) (hoffset : x.offset < 2 ^ 64)
    (hm : imports[symbol]? = some m) (hordinal : m.Typed)
    (haddend : -2 ^ 63 ≤ addend ∧ addend < 2 ^ 63) (htells : Tells imports s rebasings bindings)
    (h : bindAt s x symbol m addend = .ok s') :
    Tells imports s' rebasings (bindings ++
        [⟨BIND_TYPE_POINTER, x.segment, x.offset, m.ordinal, m.name, m.flags, addend⟩]) ∧
      s'.weak = s.weak ∧ putLe 8 s.image x.file 0 = some s'.image := by
  obtain ⟨image, himage, h⟩ := bind_eq_ok.mp h
  obtain rfl := Except.ok.inj h
  refine ⟨⟨htells.rebase, ?_⟩, rfl, okOrElse_eq_ok.mp himage⟩
  obtain ⟨r, hemits, hholds⟩ := htells.bind
  obtain ⟨r', hbind, hholds'⟩ := emits_bindOpcodes hholds hm hordinal haddend hsegment hoffset
  exact ⟨r', hemits.append hbind, hholds'⟩

theorem locateOpcodes_eq_ok {fixup : Fixup} (h : locateOpcodes layout fixup = .ok x) :
    locate layout fixup = .ok x ∧ x.segment < 16 := by
  rw [locateOpcodes] at h
  cases hlocate : locate layout fixup with
  | error message =>
    rw [hlocate] at h
    exact nomatch h
  | ok y =>
    rw [hlocate] at h
    dsimp only at h
    split at h
    · next hlt =>
      obtain rfl := Except.ok.inj h
      exact ⟨rfl, hlt⟩
    · exact nomatch h

theorem offset_lt (h : locate layout x.fixup = .ok x) : x.offset < 2 ^ 64 := by
  obtain ⟨-, segment, hplaced⟩ := locate_spec h
  obtain ⟨hsizes, hstop, -⟩ := layout.inside segment (List.mem_of_getElem? hplaced.index)
  have hinside := hplaced.inside
  rw [U64_MAX] at hstop
  omega

theorem parts_rebase (imports : List Import) {target : ℕ} (hkind : x.fixup.kind = .rebase target) :
    rebasingOf imports x = some ⟨REBASE_TYPE_POINTER, x.segment, x.offset⟩ ∧
      bindingOf imports x = none ∧ weakEntryOf imports x = none := by
  rw [rebasingOf, bindingOf, weakEntryOf, hkind]
  exact ⟨rfl, rfl, rfl⟩

theorem parts_weak (hkind : x.fixup.kind = .bind symbol addend) (hm : imports[symbol]? = some m)
    (hlookup : m.weakLookup) :
    rebasingOf imports x = some ⟨REBASE_TYPE_POINTER, x.segment, x.offset⟩ ∧
      bindingOf imports x = none ∧
      weakEntryOf imports x = some ⟨m.name, x.segment, x.offset, addend⟩ := by
  rw [rebasingOf, bindingOf, weakEntryOf, hkind]
  dsimp only
  rw [hm, Option.bind_some, Option.bind_some, Option.bind_some, if_pos hlookup, if_pos hlookup,
    if_pos hlookup]
  exact ⟨rfl, rfl, rfl⟩

theorem parts_bind (hkind : x.fixup.kind = .bind symbol addend) (hm : imports[symbol]? = some m)
    (hlookup : ¬ m.weakLookup) :
    rebasingOf imports x = none ∧
      bindingOf imports x =
        some ⟨BIND_TYPE_POINTER, x.segment, x.offset, m.ordinal, m.name, m.flags, addend⟩ ∧
      weakEntryOf imports x = none := by
  rw [rebasingOf, bindingOf, weakEntryOf, hkind]
  dsimp only
  rw [hm, Option.bind_some, Option.bind_some, Option.bind_some, if_neg hlookup, if_neg hlookup,
    if_neg hlookup]
  exact ⟨rfl, rfl, rfl⟩

/-- **What one fixup adds.** -/
theorem addFixup_spec {f : Fixup} (htyped : ∀ m ∈ imports, m.Typed)
    (htells : Tells imports s rebasings bindings)
    (h : addFixup layout imports weakTargets s f = .ok s') :
    ∃ x word, x.fixup = f ∧ locate layout x.fixup = .ok x ∧ x.segment < 16 ∧
      Tells imports s' (rebasings ++ (rebasingOf imports x).toList)
        (bindings ++ (bindingOf imports x).toList) ∧
      s'.weak = s.weak ++ (weakEntryOf imports x).toList ∧
      IsWord imports weakTargets f word ∧ putLe 8 s.image x.file word = some s'.image := by
  obtain ⟨x, hx, h⟩ := bind_eq_ok.mp h
  obtain ⟨hlocate, hsegment⟩ := locateOpcodes_eq_ok hx
  obtain rfl := (locate_spec hlocate).1
  have hoffset := offset_lt hlocate
  have hkindTyped := x.fixup.typed
  cases hkind : x.fixup.kind with
  | rebase target =>
    rw [hkind] at h
    obtain ⟨htells', hweak, hput⟩ := rebaseAt_spec hsegment hoffset htells h
    obtain ⟨hrebasing, hbinding, hentry⟩ := parts_rebase imports hkind
    refine ⟨x, target, rfl, hlocate, hsegment, ?_, ?_, ?_, hput⟩
    · rw [hrebasing, hbinding, Option.toList_none, List.append_nil]
      exact htells'
    · rw [hentry, Option.toList_none, List.append_nil]
      exact hweak
    · rw [IsWord, hkind]
  | bind symbol addend =>
    rw [hkind] at h hkindTyped
    obtain ⟨m, hm, h⟩ := bind_eq_ok.mp h
    have hm := okOrElse_eq_ok.mp hm
    by_cases hlookup : m.weakLookup
    · rw [if_pos (show m.ordinal = _ from hlookup)] at h
      obtain ⟨target, htarget, h⟩ := bind_eq_ok.mp h
      have hstill : Tells imports
          { s with weak := s.weak ++ [⟨m.name, x.segment, x.offset, addend⟩] } rebasings bindings :=
        ⟨htells.rebase, htells.bind⟩
      obtain ⟨htells', hweak, hput⟩ := rebaseAt_spec hsegment hoffset hstill h
      obtain ⟨hrebasing, hbinding, hentry⟩ := parts_weak hkind hm hlookup
      refine ⟨x, _, rfl, hlocate, hsegment, ?_, ?_, ?_, hput⟩
      · rw [hrebasing, hbinding, Option.toList_none, List.append_nil]
        exact htells'
      · rw [hentry]
        exact hweak
      · rw [IsWord, hkind]
        refine ⟨m, hm, ?_⟩
        rw [if_pos hlookup]
        exact ⟨target, Option.join_eq_some_iff.mp (okOrElse_eq_ok.mp htarget), rfl⟩
    · rw [if_neg (show ¬ m.ordinal = _ from hlookup)] at h
      obtain ⟨htells', hweak, hput⟩ := bindAt_spec hsegment hoffset hm
        (htyped m (List.mem_of_getElem? hm)) hkindTyped htells h
      obtain ⟨hrebasing, hbinding, hentry⟩ := parts_bind hkind hm hlookup
      refine ⟨x, 0, rfl, hlocate, hsegment, ?_, ?_, ?_, hput⟩
      · rw [hrebasing, hbinding, Option.toList_none, List.append_nil]
        exact htells'
      · rw [hentry, Option.toList_none, List.append_nil]
        exact hweak
      · rw [IsWord, hkind]
        exact ⟨m, hm, by rw [if_neg hlookup]⟩

/-! ### All fixups -/

theorem filterMap_cons_toList {α β : Type} (f : α → Option β) (x : α) (l : List α) :
    (x :: l).filterMap f = (f x).toList ++ l.filterMap f := by
  rw [List.filterMap_cons]
  cases f x <;> rfl

/-- The words of located fixups stand in the image. -/
def WordsAt (imports : List Import) (weakTargets : List (Option ℕ)) (image : List UInt8)
    (located : List Located) : Prop :=
  ∀ x ∈ located, ∃ word, IsWord imports weakTargets x.fixup word ∧
    StandsAt image x.file (leBytes 8 word)

/-- **What all fixups add.** -/
theorem addFixups_spec (htyped : ∀ m ∈ imports, m.Typed) (fixups : List Fixup) :
    ∀ {s s' : Streams} {rebasings : List Rebasing} {bindings : List Binding},
      Tells imports s rebasings bindings →
      addFixups layout imports weakTargets fixups s = .ok s' →
      ∃ located, located.map Located.fixup = fixups ∧
        (∀ x ∈ located, locate layout x.fixup = .ok x ∧ x.segment < 16) ∧
        Tells imports s' (rebasings ++ located.filterMap (rebasingOf imports))
          (bindings ++ located.filterMap (bindingOf imports)) ∧
        s'.weak = s.weak ++ located.filterMap (weakEntryOf imports) ∧
        (∀ x ∈ located, ∃ word, IsWord imports weakTargets x.fixup word) ∧
        (located.Pairwise FilesApart →
          (∀ pos bytes, StandsAt s.image pos bytes →
            (∀ x ∈ located, pos + bytes.length ≤ x.file ∨ x.file + 8 ≤ pos) →
            StandsAt s'.image pos bytes) ∧ WordsAt imports weakTargets s'.image located) := by
  induction fixups with
  | nil =>
    intro s s' rebasings bindings htells h
    obtain rfl := Except.ok.inj h
    refine ⟨[], rfl, fun x hx => absurd hx List.not_mem_nil, ?_, (List.append_nil _).symm,
      fun x hx => absurd hx List.not_mem_nil,
      fun _ => ⟨fun pos bytes hat _ => hat, fun x hx => absurd hx List.not_mem_nil⟩⟩
    rw [List.filterMap_nil, List.filterMap_nil, List.append_nil, List.append_nil]
    exact htells
  | cons f fixups ih =>
    intro s s' rebasings bindings htells h
    rw [addFixups] at h
    obtain ⟨mid, hmid, hnext⟩ := bind_eq_ok.mp h
    obtain ⟨x, word, rfl, hlocate, hsegment, htells', hweak, hword, hput⟩ :=
      addFixup_spec htyped htells hmid
    obtain ⟨located, hmap, hlocated, htells'', hweak', hwords, himage⟩ := ih htells' hnext
    rw [putLe, Option.ite_none_right_eq_some] at hput
    obtain ⟨hfits, hput⟩ := hput
    have hput := Option.some.inj hput
    have hlen : x.file + (leBytes 8 word).length ≤ s.image.length := by
      rw [length_leBytes]
      exact hfits
    refine ⟨x :: located, by rw [List.map_cons, hmap],
      List.forall_mem_cons.mpr ⟨⟨hlocate, hsegment⟩, hlocated⟩, ?_, ?_,
      List.forall_mem_cons.mpr ⟨⟨word, hword⟩, hwords⟩, fun hapart => ?_⟩
    · rw [filterMap_cons_toList, filterMap_cons_toList, ← List.append_assoc, ← List.append_assoc]
      exact htells''
    · rw [hweak', hweak, List.append_assoc, filterMap_cons_toList]
    · obtain ⟨hx, hrest⟩ := List.pairwise_cons.mp hapart
      obtain ⟨hkeep, hstands⟩ := himage hrest
      rw [← hput] at hkeep
      refine ⟨fun pos bytes hat hfree => ?_, List.forall_mem_cons.mpr ⟨⟨word, hword, ?_⟩, hstands⟩⟩
      · obtain ⟨hfree, hfrees⟩ := List.forall_mem_cons.mp hfree
        refine hkeep pos bytes (hat.overwrite hlen ?_) hfrees
        rw [length_leBytes]
        exact hfree
      · refine hkeep x.file (leBytes 8 word) (standsAt_overwrite hlen) fun y hy => ?_
        rw [length_leBytes]
        exact hx y hy

/-! ### The order of weak binds -/

theorem weakLe_iff {a b : WeakEntry} : weakLe a b = true ↔
    a.name < b.name ∨ (a.name = b.name ∧ (a.segment < b.segment ∨ (a.segment = b.segment ∧
      (a.offset < b.offset ∨ (a.offset = b.offset ∧ a.addend ≤ b.addend))))) := by
  simp only [weakLe, Bool.or_eq_true, Bool.and_eq_true, decide_eq_true_eq]

theorem weakLe_trans (a b c : WeakEntry) (hab : weakLe a b = true) (hbc : weakLe b c = true) :
    weakLe a c = true := by
  rw [weakLe_iff] at hab hbc ⊢
  rcases hab with hab | ⟨hab, hab'⟩
  · rcases hbc with hbc | ⟨hbc, -⟩
    · exact .inl (List.lt_trans hab hbc)
    · exact .inl (hbc ▸ hab)
  · rcases hbc with hbc | ⟨hbc, hbc'⟩
    · exact .inl (hab ▸ hbc)
    · exact .inr ⟨hab.trans hbc, by omega⟩

theorem weakLe_total (a b : WeakEntry) : (weakLe a b || weakLe b a) = true := by
  rw [Bool.or_eq_true, weakLe_iff, weakLe_iff]
  by_cases hlt : a.name < b.name
  · exact .inl (.inl hlt)
  · by_cases hgt : b.name < a.name
    · exact .inr (.inl hgt)
    · have hname := List.le_antisymm (List.not_lt.mp hgt) (List.not_lt.mp hlt)
      rcases Nat.lt_trichotomy a.segment b.segment with hs | hs | hs
      · exact .inl (.inr ⟨hname, .inl hs⟩)
      · by_cases hle : a.offset < b.offset ∨ (a.offset = b.offset ∧ a.addend ≤ b.addend)
        · exact .inl (.inr ⟨hname, .inr ⟨hs, hle⟩⟩)
        · exact .inr (.inr ⟨hname.symm, .inr ⟨hs.symm, by omega⟩⟩)
      · exact .inr (.inr ⟨hname.symm, .inl hs⟩)

/-! ### What the streams tell -/

/-- A pointer that is bound to a symbol. -/
structure Bound where
  address : ℕ
  ordinal : ℤ
  name : List UInt8
  weak : Bool
  addend : ℤ
  deriving DecidableEq, Repr

/-- A pointer that is bound to the definition that wins. -/
structure WeakBound where
  address : ℕ
  name : List UInt8
  addend : ℤ
  deriving DecidableEq, Repr

/-- Rebases, weak-lookup binds and other binds: the address of a fixup of the first two kinds. -/
def rebasedOf (imports : List Import) (f : Fixup) : Option ℕ :=
  match f.kind with
  | .rebase _ => some f.address
  | .bind symbol _ => imports[symbol]?.bind fun m => if m.weakLookup then some f.address else none

/-- What a fixup binds, other than to the definition that wins. -/
def boundOf (imports : List Import) (f : Fixup) : Option Bound :=
  match f.kind with
  | .rebase _ => none
  | .bind symbol addend => imports[symbol]?.bind fun m =>
      if m.weakLookup then none else some ⟨f.address, m.ordinal, m.name, m.weak, addend⟩

/-- What a fixup binds to the definition that wins. -/
def weakBoundOf (imports : List Import) (f : Fixup) : Option WeakBound :=
  match f.kind with
  | .rebase _ => none
  | .bind symbol addend => imports[symbol]?.bind fun m =>
      if m.weakLookup then some ⟨f.address, m.name, addend⟩ else none

/-- The pointer of a rebase. -/
def rebasedAt (layout : Layout) (r : Rebasing) : ℕ := addressOf layout r.segment r.offset

/-- The pointer of a bind. -/
def boundAt (layout : Layout) (b : Binding) : Bound :=
  ⟨addressOf layout b.segment b.offset, b.ordinal, b.symbol,
    decide (b.flags = BIND_SYMBOL_FLAGS_WEAK_IMPORT), b.addend⟩

/-- The pointer of a weak bind. -/
def weakBoundAt (layout : Layout) (b : Binding) : WeakBound :=
  ⟨addressOf layout b.segment b.offset, b.symbol, b.addend⟩

/-- The streams rebase and bind every fixup once, where it is and as it says. -/
structure Told (layout : Layout) (fixups : List Fixup) (imports : List Import) (streams : Opcodes) :
    Prop where
  rebase : ∃ rebasings, rebaseRun streams.rebase ⟨0, 0, 0⟩ = some rebasings ∧
    (∀ r ∈ rebasings, r.kind = REBASE_TYPE_POINTER) ∧
    (rebasings.map (rebasedAt layout)).Perm (fixups.filterMap (rebasedOf imports))
  bind : ∃ bindings, bindRun streams.bind .start = some bindings ∧
    (∀ b ∈ bindings, b.kind = BIND_TYPE_POINTER) ∧
    (bindings.map (boundAt layout)).Perm (fixups.filterMap (boundOf imports))
  weak : ∃ bindings, bindRun streams.weakBind .start = some bindings ∧
    (∀ b ∈ bindings, b.kind = BIND_TYPE_POINTER) ∧
    (bindings.map (weakBoundAt layout)).Perm (fixups.filterMap (weakBoundOf imports)) ∧
    bindings.Pairwise fun a b => a.symbol ≤ b.symbol

/-! ### From places to addresses -/

theorem addressOf_eq (h : locate layout x.fixup = .ok x) :
    addressOf layout x.segment x.offset = x.fixup.address := by
  obtain ⟨-, segment, hplaced⟩ := locate_spec h
  have hstart := hplaced.start
  have hoffset := hplaced.offset
  rw [addressOf, hplaced.index, Option.map_some, Option.getD_some]
  omega

theorem Import.flags_eq (m : Import) : decide (m.flags = BIND_SYMBOL_FLAGS_WEAK_IMPORT) = m.weak := by
  rw [Import.flags]
  cases m.weak <;> rfl

theorem rebasingOf_map (h : locate layout x.fixup = .ok x) :
    (rebasingOf imports x).map (rebasedAt layout) = rebasedOf imports x.fixup := by
  have haddress := addressOf_eq h
  rw [rebasingOf, rebasedOf]
  cases x.fixup.kind with
  | rebase target => exact congrArg some haddress
  | bind symbol addend =>
    dsimp only
    cases imports[symbol]? with
    | none => rfl
    | some m =>
      rw [Option.bind_some, Option.bind_some]
      split
      · exact congrArg some haddress
      · rfl

theorem bindingOf_map (h : locate layout x.fixup = .ok x) :
    (bindingOf imports x).map (boundAt layout) = boundOf imports x.fixup := by
  have haddress := addressOf_eq h
  rw [bindingOf, boundOf]
  cases x.fixup.kind with
  | rebase target => rfl
  | bind symbol addend =>
    dsimp only
    cases imports[symbol]? with
    | none => rfl
    | some m =>
      rw [Option.bind_some, Option.bind_some]
      split
      · rfl
      · rw [Option.map_some, boundAt, haddress, m.flags_eq]

theorem weakEntryOf_map (h : locate layout x.fixup = .ok x) :
    (weakEntryOf imports x).map (fun entry => weakBoundAt layout entry.binding) =
      weakBoundOf imports x.fixup := by
  have haddress := addressOf_eq h
  rw [weakEntryOf, weakBoundOf]
  cases x.fixup.kind with
  | rebase target => rfl
  | bind symbol addend =>
    dsimp only
    cases imports[symbol]? with
    | none => rfl
    | some m =>
      rw [Option.bind_some, Option.bind_some]
      split
      · rw [Option.map_some, weakBoundAt, WeakEntry.binding, haddress]
      · rfl

/-- What is told of located fixups, as something about the fixups. -/
theorem map_filterMap_located {β γ : Type} {located : List Located} {fixups : List Fixup}
    {f : Located → Option β} {g : β → γ} {h : Fixup → Option γ}
    (hperm : (located.map Located.fixup).Perm fixups)
    (hfg : ∀ x ∈ located, (f x).map g = h x.fixup) :
    ((located.filterMap f).map g).Perm (fixups.filterMap h) := by
  have heq : (located.filterMap f).map g = (located.map Located.fixup).filterMap h := by
    rw [List.map_filterMap, List.filterMap_map]
    exact List.filterMap_congr hfg
  rw [heq]
  exact hperm.filterMap h

theorem rebasingOf_place {r : Rebasing} (h : rebasingOf imports x = some r) :
    r = ⟨REBASE_TYPE_POINTER, x.segment, x.offset⟩ := by
  rw [rebasingOf] at h
  cases hkind : x.fixup.kind with
  | rebase target =>
    rw [hkind] at h
    exact (Option.some.inj h).symm
  | bind symbol addend =>
    rw [hkind] at h
    obtain ⟨m, -, h⟩ := Option.bind_eq_some_iff.mp h
    rw [Option.ite_none_right_eq_some] at h
    exact (Option.some.inj h.2).symm

theorem bindingOf_place {b : Binding} (h : bindingOf imports x = some b) :
    b.kind = BIND_TYPE_POINTER ∧ b.segment = x.segment ∧ b.offset = x.offset := by
  rw [bindingOf] at h
  cases hkind : x.fixup.kind with
  | rebase target =>
    rw [hkind] at h
    exact nomatch h
  | bind symbol addend =>
    rw [hkind] at h
    obtain ⟨m, -, h⟩ := Option.bind_eq_some_iff.mp h
    rw [Option.ite_none_left_eq_some] at h
    obtain rfl := Option.some.inj h.2
    exact ⟨rfl, rfl, rfl⟩

theorem weakEntryOf_eq_some {entry : WeakEntry} (h : weakEntryOf imports x = some entry) :
    ∃ (symbol : ℕ) (addend : ℤ) (m : Import), x.fixup.kind = .bind symbol addend ∧
      entry = ⟨m.name, x.segment, x.offset, addend⟩ := by
  rw [weakEntryOf] at h
  cases hkind : x.fixup.kind with
  | rebase target =>
    rw [hkind] at h
    exact nomatch h
  | bind symbol addend =>
    rw [hkind] at h
    obtain ⟨m, -, h⟩ := Option.bind_eq_some_iff.mp h
    rw [Option.ite_none_right_eq_some] at h
    exact ⟨symbol, addend, m, rfl, (Option.some.inj h.2).symm⟩

/-! ### The streams -/

theorem weakEntryOf_typed {entry : WeakEntry} (hlocate : locate layout x.fixup = .ok x)
    (hsegment : x.segment < 16) (h : weakEntryOf imports x = some entry) : entry.Typed := by
  have htyped := x.fixup.typed
  obtain ⟨symbol, addend, m, hkind, rfl⟩ := weakEntryOf_eq_some h
  rw [hkind] at htyped
  exact ⟨m.terminated, hsegment, offset_lt hlocate, htyped⟩

/-- What is known after all fixups. -/
structure Streamed (layout : Layout) (fixups : List Fixup) (imports : List Import)
    (weakTargets : List (Option ℕ)) (streams : Opcodes) (image : List UInt8)
    (located : List Located) : Prop where
  sorted : located.map Located.fixup = fixups.mergeSort fun a b => a.address ≤ b.address
  found : ∀ x ∈ located, locate layout x.fixup = .ok x
  rebase : rebaseRun streams.rebase ⟨0, 0, 0⟩ = some (located.filterMap (rebasingOf imports))
  bind : bindRun streams.bind .start = some (located.filterMap (bindingOf imports))
  weak : bindRun streams.weakBind .start =
    some (((located.filterMap (weakEntryOf imports)).mergeSort weakLe).map WeakEntry.binding)
  words : ∀ x ∈ located, ∃ word, IsWord imports weakTargets x.fixup word
  image : located.Pairwise FilesApart → WordsAt imports weakTargets image located

/-- **What the streams do.** -/
theorem opcodes_streamed {fixups : List Fixup} {image final : List UInt8} {streams : Opcodes}
    (htyped : ∀ m ∈ imports, m.Typed)
    (h : opcodes layout fixups imports weakTargets image = .ok (streams, final)) :
    ∃ located, Streamed layout fixups imports weakTargets streams final located := by
  obtain ⟨s, hs, h⟩ := bind_eq_ok.mp h
  obtain ⟨rfl, rfl⟩ := Prod.mk.inj (Except.ok.inj h)
  have hstart : Tells imports ⟨[], false, [], none, [], image⟩ [] [] :=
    ⟨⟨_, .nil _, fun hstarted => (nomatch hstarted)⟩, ⟨_, .nil _, rfl⟩⟩
  obtain ⟨located, hmap, hlocated, htells, hweak, hwords, himage⟩ :=
    addFixups_spec htyped _ hstart hs
  rw [List.nil_append, List.nil_append] at htells
  rw [List.nil_append] at hweak
  refine ⟨located, hmap, fun x hx => (hlocated x hx).1, ?_, ?_, ?_, hwords,
    fun hapart => (himage hapart).2⟩
  · obtain ⟨r, hemits, -⟩ := htells.rebase
    dsimp only
    split
    · exact rebaseRun_padded hemits
    · exact hemits.run
  · obtain ⟨r, hemits, -⟩ := htells.bind
    dsimp only
    split
    · exact bindRun_padded hemits
    · exact hemits.run
  · rw [hweak]
    refine bindRun_weakBindOpcodes fun entry hentry => ?_
    obtain ⟨x, hx, hxe⟩ := List.mem_filterMap.mp hentry
    exact weakEntryOf_typed (hlocated x hx).1 (hlocated x hx).2 hxe

namespace Streamed

variable {fixups : List Fixup} {streams : Opcodes} {image : List UInt8} {located : List Located}

theorem perm (h : Streamed layout fixups imports weakTargets streams image located) :
    (located.map Located.fixup).Perm fixups := by
  rw [h.sorted]
  exact List.mergeSort_perm _ _

/-- **The streams tell the fixups.** -/
theorem told (h : Streamed layout fixups imports weakTargets streams image located) :
    Told layout fixups imports streams := by
  refine ⟨⟨_, h.rebase, fun r hr => ?_, map_filterMap_located h.perm fun x hx =>
      rebasingOf_map (h.found x hx)⟩,
    ⟨_, h.bind, fun b hb => ?_, map_filterMap_located h.perm fun x hx =>
      bindingOf_map (h.found x hx)⟩, ⟨_, h.weak, fun b hb => ?_, ?_, ?_⟩⟩
  · obtain ⟨x, -, hx⟩ := List.mem_filterMap.mp hr
    rw [rebasingOf_place hx]
  · obtain ⟨x, -, hx⟩ := List.mem_filterMap.mp hb
    exact (bindingOf_place hx).1
  · obtain ⟨entry, -, rfl⟩ := List.mem_map.mp hb
    rfl
  · rw [List.map_map]
    refine ((List.mergeSort_perm _ _).map _).trans ?_
    exact map_filterMap_located h.perm fun x hx => weakEntryOf_map (h.found x hx)
  · rw [List.pairwise_map]
    refine (List.pairwise_mergeSort weakLe_trans weakLe_total _).imp
      fun {a b} hab => ?_
    rcases weakLe_iff.mp hab with hlt | ⟨heq, -⟩
    · exact List.le_of_lt hlt
    · show a.name ≤ b.name
      rw [heq]
      exact List.le_refl _

end Streamed

end Qld.Macho
