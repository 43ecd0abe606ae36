import Qld.Passes.IcfSplit

/-!
# The invariant of identical code folding

What the folding loop maintains:

* `Admissible` — a partition of the sections in which only eligible sections share a class,
  and members of one class have equal constant parts and corresponding targets in one class;
* `compareConstant_eq_iff`, `compareVariable_eq_iff` — what the two comparisons decide, and
  `constantHash_congr`, `variableHash_congr`: the hashes respect them;
* `Inv` — what holds after every `commit`: the class of a section is its lowest member, the
  working set lists the classes that may still split, every admissible partition refines the
  classes (`Inv.coarse`);
* `Committable.inv` — committing disjoint classes establishes the invariant.
-/

namespace Qld.Passes.Icf

open Qld.Lib Std

variable {input : IcfInput} {mode : IcfMode}

/-! ### The constant parts -/

/-- The fields of a relocation that are compared by value. -/
def shape (r : IcfReloc) : ℕ × ℕ × ℤ × ℕ × ℕ := (r.offset, r.kind, r.addend, targetShape r.target)

/-- Equal constant parts: key, contents, and the relocation list up to target sections. -/
structure SameConstant (input : IcfInput) (a b : ℕ) : Prop where
  key : (input.sectionAt a).key = (input.sectionAt b).key
  contents : (input.sectionAt a).contents = (input.sectionAt b).contents
  relocs : (input.relocs a).map shape = (input.relocs b).map shape

theorem compareReloc_eq_iff (a b : IcfReloc) : compareReloc a b = .eq ↔ shape a = shape b := by
  simp only [compareReloc, Ordering.then_eq_eq, Nat.compare_eq_eq, Int.compare_eq_eq, shape,
    Prod.ext_iff]

variable {α β : Type*}

/-- A lexicographic comparison is equal exactly on lists whose keys agree. -/
theorem compareLex_eq_iff {cmp : α → α → Ordering} {key : α → β}
    (h : ∀ a b, cmp a b = .eq ↔ key a = key b) (l m : List α) :
    List.compareLex cmp l m = .eq ↔ l.map key = m.map key := by
  induction l generalizing m with
  | nil => cases m <;> simp [List.compareLex]
  | cons a l ih =>
    cases m with
    | nil => simp [List.compareLex]
    | cons b m =>
      rw [List.compareLex_cons_cons, Ordering.then_eq_eq, h, ih]
      simp

theorem compareConstant_eq_iff (a b : ℕ) :
    compareConstant input a b = .eq ↔ SameConstant input a b := by
  have hbytes : ∀ x y : List UInt8, compare x y = .eq ↔ x = y := fun x y =>
    LawfulEqCmp.compare_eq_iff_eq
  simp only [compareConstant, Ordering.then_eq_eq, Nat.compare_eq_eq, hbytes,
    compareLex_eq_iff compareReloc_eq_iff]
  constructor
  · rintro ⟨hkey, _, _, hcontents, hrelocs⟩
    exact ⟨hkey, hcontents, hrelocs⟩
  · rintro ⟨hkey, hcontents, hrelocs⟩
    refine ⟨hkey, by rw [hcontents], ?_, hcontents, hrelocs⟩
    simpa using congrArg List.length hrelocs

instance compareReloc_transCmp : TransCmp compareReloc :=
  inferInstanceAs (TransCmp (compareLex (compareOn IcfReloc.offset)
    (compareLex (compareOn IcfReloc.kind) (compareLex (compareOn IcfReloc.addend)
      (compareLex (compareOn fun r => (targetShape r.target).1)
        (compareOn fun r => (targetShape r.target).2))))))

theorem transCmp_comap {cmp : β → β → Ordering} [TransCmp cmp] (f : α → β) :
    TransCmp fun a b => cmp (f a) (f b) where
  eq_swap {a b} := (OrientedCmp.eq_swap : cmp (f a) (f b) = (cmp (f b) (f a)).swap)
  isLE_trans {a b c} :=
    (TransCmp.isLE_trans : (cmp (f a) (f b)).isLE → _ → (cmp (f a) (f c)).isLE)

instance compareConstant_transCmp : TransCmp (compareConstant input) :=
  have : TransCmp fun a b => List.compareLex compareReloc (input.relocs a) (input.relocs b) :=
    transCmp_comap _
  inferInstanceAs (TransCmp (compareLex (compareOn fun a => (input.sectionAt a).key)
    (compareLex (compareOn fun a => (input.sectionAt a).contents.length)
      (compareLex (compareOn fun a => (input.relocs a).length)
        (compareLex (compareOn fun a => (input.sectionAt a).contents)
          fun a b => List.compareLex compareReloc (input.relocs a) (input.relocs b))))))

instance compareVariable_transCmp (classOf : ℕ → ℕ) : TransCmp (compareVariable input classOf) :=
  transCmp_comap fun a => (input.relocs a).map (targetClass classOf)

theorem compareVariable_eq_iff (classOf : ℕ → ℕ) (a b : ℕ) :
    compareVariable input classOf a b = .eq ↔
      (input.relocs a).map (targetClass classOf) = (input.relocs b).map (targetClass classOf) := by
  rw [compareVariable]
  exact LawfulEqCmp.compare_eq_iff_eq

variable {a b i : ℕ}

/-- The hash of the constant parts is a function of them. -/
theorem constantHash_congr (h : HashFn) (hab : SameConstant input a b) :
    constantHash input h a = constantHash input h b := by
  let words : ℕ × ℕ × ℤ × ℕ × ℕ → List HashWrite := fun s =>
    [.u64 s.1, .u32 s.2.1, .i64 s.2.2.1, .u8 s.2.2.2.1, .u64 s.2.2.2.2]
  have hwords : ∀ x, constantHash input h x =
      h ([.u64 (input.sectionAt x).key, .usize (input.sectionAt x).contents.length,
        .bytes (input.sectionAt x).contents, .usize (input.relocs x).length] ++
        ((input.relocs x).map shape).flatMap words) := by
    intro x
    rw [List.flatMap_map]
    rfl
  have hlen : (input.relocs a).length = (input.relocs b).length := by
    simpa using congrArg List.length hab.relocs
  rw [hwords, hwords, hab.key, hab.contents, hab.relocs, hlen]

variable {classOf cl : ℕ → ℕ} {r : IcfReloc}

variable {r' : IcfReloc}

theorem targetWord_congr (hshape : shape r = shape r')
    (hclass : targetClass classOf r = targetClass classOf r') :
    targetWord classOf r = targetWord classOf r' := by
  have htarget : targetShape r.target = targetShape r'.target := by
    simp only [shape, Prod.mk.injEq] at hshape
    exact hshape.2.2.2
  unfold targetClass at hclass
  unfold targetWord
  cases ht : r.target <;> cases ht' : r'.target <;> simp_all [targetShape] <;> omega

/-- Lists with equal shapes and equal target classes give equal words. -/
theorem filterMap_targetWord_congr (l : List IcfReloc) :
    ∀ m : List IcfReloc, l.map shape = m.map shape →
      l.map (targetClass classOf) = m.map (targetClass classOf) →
      l.filterMap (targetWord classOf) = m.filterMap (targetWord classOf) := by
  induction l with
  | nil =>
    intro m hshape _
    rw [List.map_eq_nil_iff.mp (hshape.symm.trans List.map_nil)]
  | cons r l ih =>
    intro m hshape hclass
    cases m with
    | nil => exact absurd hshape (by simp)
    | cons r' m =>
      simp only [List.map_cons, List.cons.injEq] at hshape hclass
      rw [List.filterMap_cons, List.filterMap_cons, ih m hshape.2 hclass.2,
        targetWord_congr hshape.1 hclass.1]

/-- The hash of the target classes is a function of them, on sections of one shape. -/
theorem variableHash_congr (h : HashFn) (hab : SameConstant input a b)
    (hclass : compareVariable input classOf a b = .eq) :
    variableHash input classOf h a = variableHash input classOf h b := by
  rw [variableHash, variableHash, filterMap_targetWord_congr _ _ hab.relocs
    ((compareVariable_eq_iff classOf a b).mp hclass)]

/-- Whether a relocation has a target in a section. -/
def isSectionTarget (r : IcfReloc) : Bool := (shape r).2.2.2.1 == 0

theorem hasSectionTargets_eq (id : ℕ) :
    hasSectionTargets input id = (input.relocs id).any isSectionTarget := by
  unfold hasSectionTargets isSectionTarget shape
  congr 1
  funext r
  cases r.target <;> rfl

theorem hasSectionTargets_congr (hab : SameConstant input a b) :
    hasSectionTargets input a = hasSectionTargets input b := by
  have hany : ∀ l : List IcfReloc, l.any isSectionTarget =
      (l.map shape).any fun s => s.2.2.2.1 == 0 := fun l => by rw [List.any_map]; rfl
  rw [hasSectionTargets_eq, hasSectionTargets_eq, hany, hany, hab.relocs]

/-! ### Committing classes -/

/-- The ids of the slots of a class. -/
abbrev ids (c : List Slot) : List ℕ := c.map Slot.id

/-- A class that can never split again. -/
def isFinal (input : IcfInput) (c : List Slot) : Bool :=
  match c with
  | [] => true
  | representative :: _ => c.length = 1 || !hasSectionTargets input representative.id

theorem storeClass_foldl (rep : ℕ) (c : List Slot) (classOf : ℕ → ℕ) (i : ℕ) :
    c.foldl (fun classOf slot => Function.update classOf slot.id rep) classOf i =
      if i ∈ ids c then rep else classOf i := by
  induction c generalizing classOf with
  | nil => simp
  | cons s c ih =>
    rw [List.foldl_cons, ih]
    by_cases hi : i ∈ ids c
    · simp [hi]
    · by_cases hs : i = s.id
      · simp [hs]
      · simp [hi, hs]

/-- The lowest id of a class: that of its first slot. -/
def headId (c : List Slot) : ℕ := (ids c).headD 0

theorem headId_mem {c : List Slot} (hc : c ≠ []) : headId c ∈ ids c := by
  cases c with
  | nil => exact absurd rfl hc
  | cons s c => exact List.mem_cons_self

theorem storeClass_apply (classOf : ℕ → ℕ) (c : List Slot) (i : ℕ) :
    storeClass classOf c i = if i ∈ ids c then headId c else classOf i := by
  cases c with
  | nil => simp [storeClass]
  | cons s c => exact storeClass_foldl s.id (s :: c) classOf i

/-- The classes `P` are disjoint: no section is in two of them. -/
abbrev Disjoint (P : List (List Slot)) : Prop := (ids P.flatten).Nodup

theorem Disjoint.cons {c : List Slot} {P : List (List Slot)} (h : Disjoint (c :: P)) :
    Disjoint P ∧ ∀ d ∈ P, ∀ i ∈ ids d, i ∉ ids c := by
  rw [Disjoint, ids, List.flatten_cons, List.map_append, List.nodup_append'] at h
  refine ⟨h.2.1, fun d hd i hi hic => h.2.2 hic ?_⟩
  obtain ⟨x, hx, rfl⟩ := List.mem_map.mp hi
  exact List.mem_map_of_mem (List.mem_flatten.mpr ⟨d, hd, hx⟩)

theorem foldl_storeClass_of_mem (P : List (List Slot)) :
    ∀ classOf : ℕ → ℕ, Disjoint P → ∀ c ∈ P, ∀ i ∈ ids c,
      P.foldl storeClass classOf i = headId c := by
  induction P with
  | nil => intro _ _ c hc; exact absurd hc List.not_mem_nil
  | cons d P ih =>
    intro classOf hP c hc i hi
    obtain ⟨hP', hdisj⟩ := Disjoint.cons hP
    rw [List.foldl_cons]
    by_cases hmem : c ∈ P
    · exact ih _ hP' c hmem i hi
    · have hcd : c = d := (List.mem_cons.mp hc).resolve_right hmem
      have hnot : ∀ classOf' : ℕ → ℕ, P.foldl storeClass classOf' i = classOf' i := by
        intro classOf'
        clear ih hP hc hmem hP'
        induction P generalizing classOf' with
        | nil => rfl
        | cons e P ihP =>
          rw [List.foldl_cons, ihP (fun d hd => hdisj d (List.mem_cons_of_mem _ hd)),
            storeClass_apply, if_neg]
          exact fun hie => hdisj e List.mem_cons_self i hie (hcd ▸ hi)
      rw [hnot, storeClass_apply, hcd, if_pos (hcd ▸ hi)]

theorem foldl_storeClass_of_notMem (P : List (List Slot)) :
    ∀ (classOf : ℕ → ℕ) (i : ℕ), (∀ c ∈ P, i ∉ ids c) →
      P.foldl storeClass classOf i = classOf i := by
  induction P with
  | nil => intro _ _ _; rfl
  | cons d P ih =>
    intro classOf i hi
    rw [List.foldl_cons, ih _ _ fun c hc => hi c (List.mem_cons_of_mem _ hc), storeClass_apply,
      if_neg (hi d List.mem_cons_self)]

theorem markDone_eq (input : IcfInput) (c : List Slot) :
    markDone input c =
      if isFinal input c then c.map fun slot => { slot with done := true } else c := by
  cases c with
  | nil => rfl
  | cons s c => rfl

variable {P : List (List Slot)}

/-- The working set after a commit: the classes that are not final. -/
theorem commit_work (input : IcfInput) (classOf : ℕ → ℕ) (hflag : ∀ c ∈ P, Flagged c)
    (hdone : ∀ x ∈ P.flatten, x.done = false) :
    (commit input classOf P.flatten).work = (P.filter fun c => !isFinal input c).flatten := by
  simp only [commit, chunks_flatten hflag]
  clear hflag
  induction P with
  | nil => rfl
  | cons c P ih =>
    have hc : ∀ x ∈ c, x.done = false := fun x hx => hdone x (by simp [hx])
    have hP := ih fun x hx => hdone x (by
      rw [List.flatten_cons, List.mem_append]
      exact .inr hx)
    rw [List.flatMap_cons, List.filter_append, hP]
    rw [markDone_eq, List.filter_cons (x := c)]
    cases isFinal input c with
    | true => simp
    | false =>
      have hkeep : c.filter (fun slot => !slot.done) = c :=
        List.filter_eq_self.mpr fun x hx => by simp [hc x hx]
      simp [hkeep]

/-! ### Admissible partitions -/

/-- A partition of the sections in which members of one class cannot be told apart: a section
that does not take part is alone, and two members of a class have equal constant parts and
corresponding target sections in one class. -/
structure Admissible (input : IcfInput) (mode : IcfMode) (E : Setoid (Fin input.len)) : Prop where
  alone : ∀ i j : Fin input.len, eligible input mode i = false → E i j → i = j
  constant : ∀ i j : Fin input.len, E i j → SameConstant input i j
  targets : ∀ i j : Fin input.len, E i j → ∀ (k : ℕ) (r r' : IcfReloc),
    (input.relocs i)[k]? = some r → (input.relocs j)[k]? = some r' →
      ∀ (s s' : Fin input.len) (o o' : ℕ),
      r.target = .section s o → r'.target = .section s' o' → E s s'

variable {k s o j : ℕ}

/-- A relocation of the input targets a section that exists. -/
theorem target_lt (hr : (input.relocs i)[k]? = some r) (hs : r.target = .section s o) :
    s < input.len := by
  have hmem := input.relocTable.mem_values_of_mem_row (List.mem_of_getElem? hr)
  have hbad := input.inRange r hmem
  simp only [badTarget, hs, ite_eq_right_iff, reduceCtorEq, imp_false, ge_iff_le] at hbad
  exact Nat.not_le.mp hbad

/-- Sections of one shape compare equal when corresponding targets have equal classes. -/
theorem compareVariable_eq_of_targets (hsame : SameConstant input i j)
    (h : ∀ (k : ℕ) (r r' : IcfReloc), (input.relocs i)[k]? = some r →
      (input.relocs j)[k]? = some r' → ∀ s s' o o',
        r.target = .section s o → r'.target = .section s' o' → cl s = cl s') :
    compareVariable input cl i j = .eq := by
  rw [compareVariable_eq_iff]
  apply List.ext_getElem?
  intro k
  have hk := congrArg (fun l => l[k]?) hsame.relocs
  simp only [List.getElem?_map] at hk ⊢
  cases hr : (input.relocs i)[k]? with
  | none =>
    rw [hr, Option.map_none] at hk
    rw [Option.map_eq_none_iff.mp hk.symm]
  | some r =>
    rw [hr, Option.map_some] at hk
    obtain ⟨r', hr', hshape⟩ := Option.map_eq_some_iff.mp hk.symm
    have htarget : targetShape r'.target = targetShape r.target := by
      simp only [shape, Prod.mk.injEq] at hshape
      exact hshape.2.2.2
    rw [hr', Option.map_some, Option.map_some, Option.some.injEq]
    have hcl := h k r r' hr hr'
    unfold targetClass
    cases ht : r.target <;> cases ht' : r'.target
    · exact hcl _ _ _ _ ht ht'
    all_goals simp_all [targetShape]

/-- Sections that compare equal have equal classes at corresponding targets. -/
theorem targets_of_compareVariable_eq (h : compareVariable input cl i j = .eq)
    (hr : (input.relocs i)[k]? = some r) (hr' : (input.relocs j)[k]? = some r') {s' o' : ℕ}
    (hs : r.target = .section s o) (hs' : r'.target = .section s' o') :
    cl s = cl s' := by
  have hk := congrArg (fun l => l[k]?) ((compareVariable_eq_iff cl i j).mp h)
  simp only [List.getElem?_map, hr, hr', Option.map_some, Option.some.injEq, targetClass, hs,
    hs'] at hk
  exact hk

/-! ### The invariant -/

/-- A section is listed by no class. -/
def Outside (L : List (List Slot)) (i : ℕ) : Prop := ∀ c ∈ L, i ∉ ids c

/-- The invariant of the folding loop, for the class ids `cl` and the working classes `L`. -/
structure Inv (input : IcfInput) (mode : IcfMode) (cl : ℕ → ℕ) (L : List (List Slot)) : Prop where
  flagged : ∀ c ∈ L, Flagged c
  notDone : ∀ x ∈ L.flatten, x.done = false
  disjoint : Disjoint L
  eligible : ∀ c ∈ L, ∀ i ∈ ids c, eligible input mode i = true
  /-- The class of a section is its lowest member. -/
  lowest : ∀ i, cl i ≤ i ∧ cl (cl i) = cl i
  /-- A working class lists all its members. -/
  member : ∀ c ∈ L, ∀ i ∈ ids c, ∀ j, cl i = cl j ↔ j ∈ ids c
  alone : ∀ i j, Icf.eligible input mode i = false → cl i = cl j → i = j
  /-- A class that left the working set can never split again. -/
  retired : ∀ i j, Outside L i → cl i = cl j → i = j ∨ hasSectionTargets input i = false
  constant : ∀ i j, cl i = cl j → SameConstant input i j
  /-- Every admissible partition refines the classes. -/
  coarse : ∀ E, Admissible input mode E → ∀ i j : Fin input.len, E i j → cl i = cl j

theorem Disjoint.eq_of_mem (P : List (List Slot)) : Disjoint P → ∀ c ∈ P, ∀ d ∈ P, ∀ i,
    i ∈ ids c → i ∈ ids d → c = d := by
  induction P with
  | nil => intro _ c hc; exact absurd hc List.not_mem_nil
  | cons e P ih =>
    intro hP c hc d hd i hic hid
    obtain ⟨hP', hdisj⟩ := Disjoint.cons hP
    rcases List.mem_cons.mp hc with hce | hcP
    · rcases List.mem_cons.mp hd with hde | hdP
      · rw [hce, hde]
      · exact absurd (hce ▸ hic) (hdisj d hdP i hid)
    · rcases List.mem_cons.mp hd with hde | hdP
      · exact absurd (hde ▸ hid) (hdisj c hcP i hic)
      · exact ih hP' c hcP d hdP i hic hid

theorem listed_or_outside (P : List (List Slot)) (i : ℕ) :
    (∃ c ∈ P, i ∈ ids c) ∨ Outside P i := by
  by_cases h : ∃ c ∈ P, i ∈ ids c
  · exact .inl h
  · exact .inr fun c hc hic => h ⟨c, hc, hic⟩

/-- New classes to be committed over the class ids `cl`: disjoint, and closed under `cl`. -/
structure Committable (cl : ℕ → ℕ) (P : List (List Slot)) : Prop where
  flagged : ∀ c ∈ P, Flagged c
  disjoint : Disjoint P
  ascending : ∀ c ∈ P, (ids c).Pairwise (· < ·)
  outside : ∀ i, Outside P i → Outside P (cl i) ∧ cl i ≤ i ∧ cl (cl i) = cl i

theorem Committable.same_class_iff (h : Committable cl P) (i j : ℕ) :
    P.foldl storeClass cl i = P.foldl storeClass cl j ↔
      (∃ c ∈ P, i ∈ ids c ∧ j ∈ ids c) ∨ (Outside P i ∧ Outside P j ∧ cl i = cl j) := by
  have hhead : ∀ c ∈ P, headId c ∈ ids c := fun c hc => headId_mem (h.flagged c hc).ne_nil
  rcases listed_or_outside P i with ⟨c, hc, hic⟩ | hi
  · rw [foldl_storeClass_of_mem P cl h.disjoint c hc i hic]
    rcases listed_or_outside P j with ⟨d, hd, hjd⟩ | hj
    · rw [foldl_storeClass_of_mem P cl h.disjoint d hd j hjd]
      constructor
      · intro heq
        have hcd := h.disjoint.eq_of_mem P c hc d hd _ (hhead c hc) (heq ▸ hhead d hd)
        exact .inl ⟨c, hc, hic, hcd ▸ hjd⟩
      · rintro (⟨e, he, hie, hje⟩ | ⟨hi, _, _⟩)
        · rw [h.disjoint.eq_of_mem P c hc e he i hic hie,
            h.disjoint.eq_of_mem P d hd e he j hjd hje]
        · exact absurd hic (hi c hc)
    · rw [foldl_storeClass_of_notMem P cl j hj]
      constructor
      · intro heq
        exact absurd (heq ▸ hhead c hc) ((h.outside j hj).1 c hc)
      · rintro (⟨e, he, _, hje⟩ | ⟨hi, _, _⟩)
        · exact absurd hje (hj e he)
        · exact absurd hic (hi c hc)
  · rw [foldl_storeClass_of_notMem P cl i hi]
    rcases listed_or_outside P j with ⟨d, hd, hjd⟩ | hj
    · rw [foldl_storeClass_of_mem P cl h.disjoint d hd j hjd]
      constructor
      · intro heq
        exact absurd (heq ▸ hhead d hd) ((h.outside i hi).1 d hd)
      · rintro (⟨e, he, hie, _⟩ | ⟨_, hj, _⟩)
        · exact absurd hie (hi e he)
        · exact absurd hjd (hj d hd)
    · rw [foldl_storeClass_of_notMem P cl j hj]
      constructor
      · intro heq
        exact .inr ⟨hi, hj, heq⟩
      · rintro (⟨e, he, hie, _⟩ | ⟨_, _, heq⟩)
        · exact absurd hie (hi e he)
        · exact heq

/-- The class of a section after a commit is its lowest member. -/
theorem Committable.lowest (h : Committable cl P) (i : ℕ) :
    P.foldl storeClass cl i ≤ i ∧
      P.foldl storeClass cl (P.foldl storeClass cl i) = P.foldl storeClass cl i := by
  rcases listed_or_outside P i with ⟨c, hc, hic⟩ | hi
  · have hhead := headId_mem (h.flagged c hc).ne_nil
    rw [foldl_storeClass_of_mem P cl h.disjoint c hc i hic,
      foldl_storeClass_of_mem P cl h.disjoint c hc _ hhead]
    refine ⟨?_, rfl⟩
    have hasc := h.ascending c hc
    cases hids : ids c with
    | nil => rw [hids] at hic; exact absurd hic List.not_mem_nil
    | cons a l =>
      rw [headId, hids, List.headD_cons]
      rw [hids] at hic hasc
      rcases List.mem_cons.mp hic with rfl | hmem
      · exact le_rfl
      · exact ((List.pairwise_cons.mp hasc).1 i hmem).le
  · obtain ⟨hout, hle, hidem⟩ := h.outside i hi
    rw [foldl_storeClass_of_notMem P cl i hi, foldl_storeClass_of_notMem P cl _ hout]
    exact ⟨hle, hidem⟩

theorem outside_filter {p : List Slot → Bool} (h : Outside (P.filter p) i) :
    Outside P i ∨ ∃ c ∈ P, p c = false ∧ i ∈ ids c := by
  rcases listed_or_outside P i with ⟨c, hc, hic⟩ | hi
  · refine .inr ⟨c, hc, ?_, hic⟩
    by_contra hp
    exact h c (List.mem_filter.mpr ⟨hc, by simpa using hp⟩) hic
  · exact .inl hi

theorem Committable.inv (h : Committable cl P) (hdone : ∀ x ∈ P.flatten, x.done = false)
    (helig : ∀ c ∈ P, ∀ i ∈ ids c, eligible input mode i = true)
    (halone : ∀ i j, Outside P i → Outside P j → eligible input mode i = false →
      cl i = cl j → i = j) (hretired : ∀ i j, Outside P i → Outside P j → cl i = cl j →
      i = j ∨ hasSectionTargets input i = false)
    (hconstIn : ∀ c ∈ P, ∀ i ∈ ids c, ∀ j ∈ ids c, SameConstant input i j)
    (hconstOut : ∀ i j, Outside P i → Outside P j → cl i = cl j → SameConstant input i j)
    (hcoarse : ∀ E, Admissible input mode E → ∀ i j : Fin input.len, E i j →
      (∃ c ∈ P, i.val ∈ ids c ∧ j.val ∈ ids c) ∨ (Outside P i ∧ Outside P j ∧ cl i = cl j)) :
    Inv input mode (P.foldl storeClass cl) (P.filter fun c => !isFinal input c) where
  flagged c hc := h.flagged c (List.mem_filter.mp hc).1
  notDone x hx := by
    obtain ⟨c, hc, hxc⟩ := List.mem_flatten.mp hx
    exact hdone x (List.mem_flatten.mpr ⟨c, (List.mem_filter.mp hc).1, hxc⟩)
  disjoint := by
    have hsub : ((P.filter fun c => !isFinal input c).flatten).Sublist P.flatten :=
      List.Sublist.flatten List.filter_sublist
    exact (hsub.map Slot.id).nodup h.disjoint
  eligible c hc := helig c (List.mem_filter.mp hc).1
  lowest := h.lowest
  member c hc i hi j := by
    have hcP := (List.mem_filter.mp hc).1
    rw [h.same_class_iff]
    constructor
    · rintro (⟨d, hd, hid, hjd⟩ | ⟨hout, _, _⟩)
      · rwa [h.disjoint.eq_of_mem P c hcP d hd i hi hid]
      · exact absurd hi (hout c hcP)
    · intro hj
      exact .inl ⟨c, hcP, hi, hj⟩
  alone i j hne heq := by
    rcases (h.same_class_iff i j).mp heq with ⟨c, hc, hic, _⟩ | ⟨hi, hj, heq⟩
    · rw [helig c hc i hic] at hne
      exact absurd hne (by decide)
    · exact halone i j hi hj hne heq
  retired i j hout heq := by
    rcases (h.same_class_iff i j).mp heq with ⟨c, hc, hic, hjc⟩ | ⟨hi, hj, heq⟩
    · rcases outside_filter hout with hi | ⟨d, hd, hfin, hid⟩
      · exact absurd hic (hi c hc)
      · rw [h.disjoint.eq_of_mem P d hd c hc i hid hic] at hfin
        cases c with
        | nil => exact absurd hic List.not_mem_nil
        | cons s c =>
          simp only [isFinal, Bool.not_eq_false', Bool.or_eq_true, decide_eq_true_eq,
            Bool.not_eq_true'] at hfin
          rcases hfin with hone | hno
          · have hc' : c = [] := by simpa using hone
            subst hc'
            exact .inl ((List.mem_singleton.mp hic).trans (List.mem_singleton.mp hjc).symm)
          · right
            rw [hasSectionTargets_congr (hconstIn _ hc i hic s.id List.mem_cons_self)]
            exact hno
    · exact hretired i j hi hj heq
  constant i j heq := by
    rcases (h.same_class_iff i j).mp heq with ⟨c, hc, hic, hjc⟩ | ⟨hi, hj, heq⟩
    · exact hconstIn c hc i hic j hjc
    · exact hconstOut i j hi hj heq
  coarse E hE i j hij := (h.same_class_iff i j).mpr (hcoarse E hE i j hij)

end Qld.Passes.Icf
