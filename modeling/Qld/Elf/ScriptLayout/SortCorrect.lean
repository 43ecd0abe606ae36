import Qld.Elf.ScriptLayout.Sort

/-!
# When the order of members is an order

* `compareSections_totalOn` — a total preorder under every rule but the init priorities,
  and under that one unless a name without a number comes between two numbered ones whose numbers
  are the other way round;
* `cmp_totalOn` — the comparator of an output section's members is one then;
* `cmp_eq_iff` — it leaves ties between generated sections only;
* `buildEntries_sorted` — the members come in the only order it admits.
-/

namespace Qld.Elf.ScriptLayout

open Qld.Lib Qld.Script

/-! ### Sections -/

/-- Three sections that init priorities do not order: `a` has the lower number, and the later name,
and the name of `c`, which has no number, lies between the others. -/
def InitConflict (a b c : SortInfo) : Prop :=
  (∃ pa pb, initPriority a.name = some pa ∧ initPriority b.name = some pb ∧ pa < pb) ∧
    initPriority c.name = none ∧ compare b.name c.name = .lt ∧ compare c.name a.name = .lt

theorem byName_totalOn (rule : SortRule) (s : Set SortInfo) : TotalOn (byName rule) s := by
  have hkey : TotalOn (fun a b : SortInfo => compare a.name b.name) s := TotalOn.key _ s
  cases hrev : rule.reverse with
  | false => exact hkey.congr fun a _ b _ => by simp [byName, hrev]
  | true => exact hkey.flip.congr fun a _ b _ => by simp [byName, hrev]

theorem byAlign_totalOn (rule : SortRule) (s : Set SortInfo) : TotalOn (byAlign rule) s := by
  have hkey : TotalOn (fun a b : SortInfo => compare a.align b.align) s := TotalOn.key _ s
  cases hrev : rule.reverse with
  | true => exact hkey.congr fun a _ b _ => by simp [byAlign, hrev]
  | false => exact hkey.flip.congr fun a _ b _ => by simp [byAlign, hrev]

theorem name_eq {a b : List UInt8} (h : compare a b = .eq) : a = b :=
  Std.LawfulEqCmp.eq_of_compare h

/-- Sections by init priority, as numbers first where both have one. -/
def byPriority (a b : SortInfo) : Ordering :=
  match initPriority a.name, initPriority b.name with
  | some pa, some pb => (compare pa pb).then (compare a.name b.name)
  | _, _ => compare a.name b.name

variable {a b : SortInfo}

theorem byPriority_some {pa pb : ℕ} (ha : initPriority a.name = some pa)
    (hb : initPriority b.name = some pb) :
    byPriority a b = (compare pa pb).then (compare a.name b.name) := by
  rw [byPriority, ha, hb]

theorem byPriority_none (h : initPriority a.name = none ∨ initPriority b.name = none) :
    byPriority a b = compare a.name b.name := by
  rw [byPriority]
  rcases h with h | h <;> rw [h]
  cases initPriority a.name <;> rfl

/-- A name with a number and one without are not the same. -/
theorem name_lt {a b : SortInfo} (hne : initPriority a.name ≠ initPriority b.name)
    (h : (compare a.name b.name).isLE) : compare a.name b.name = .lt := by
  cases hcmp : compare a.name b.name with
  | lt => rfl
  | eq => exact absurd (by rw [name_eq hcmp]) hne
  | gt =>
    rw [hcmp] at h
    cases h

theorem name_lt_of_not_isLE (h : ¬(compare a.name b.name).isLE) :
    compare b.name a.name = .lt := by
  have hswap : compare b.name a.name = (compare a.name b.name).swap := Std.OrientedCmp.eq_swap
  rw [hswap]
  cases hcmp : compare a.name b.name with
  | gt => rfl
  | lt | eq =>
    rw [hcmp] at h
    exact absurd rfl h

variable {s : Set SortInfo}

theorem byPriority_trans {c : SortInfo} (ha : a ∈ s) (hb : b ∈ s) (hc : c ∈ s)
    (h : ∀ a ∈ s, ∀ b ∈ s, ∀ c ∈ s, ¬InitConflict a b c) (hab : (byPriority a b).isLE)
    (hbc : (byPriority b c).isLE) : (byPriority a c).isLE := by
  have hnames : ∀ {x y z : SortInfo}, (compare x.name y.name).isLE →
      (compare y.name z.name).isLE → (compare x.name z.name).isLE := Std.TransCmp.isLE_trans
  cases hpa : initPriority a.name with
  | none =>
    rw [byPriority_none (.inl hpa)] at hab ⊢
    cases hpb : initPriority b.name with
    | none =>
      rw [byPriority_none (.inl hpb)] at hbc
      exact hnames hab hbc
    | some pb =>
      cases hpc : initPriority c.name with
      | none =>
        rw [byPriority_none (.inr hpc)] at hbc
        exact hnames hab hbc
      | some pc =>
        rw [byPriority_some hpb hpc, Ordering.isLE_then_iff_or] at hbc
        rcases hbc with hlt | ⟨-, hbc⟩
        · by_contra hac
          refine h b hb c hc a ha ⟨⟨pb, pc, hpb, hpc, Nat.compare_eq_lt.mp hlt⟩, hpa,
            name_lt_of_not_isLE hac, name_lt (by rw [hpa, hpb]; simp) hab⟩
        · exact hnames hab hbc
  | some pa =>
    cases hpb : initPriority b.name with
    | none =>
      rw [byPriority_none (.inr hpb)] at hab
      rw [byPriority_none (.inl hpb)] at hbc
      cases hpc : initPriority c.name with
      | none =>
        rw [byPriority_none (.inr hpc)]
        exact hnames hab hbc
      | some pc =>
        have halt := name_lt (by rw [hpa, hpb]; simp) hab
        have hblt := name_lt (by rw [hpb, hpc]; simp) hbc
        rw [byPriority_some hpa hpc, Ordering.isLE_then_iff_or]
        rcases Nat.lt_trichotomy pa pc with hlt | heq | hgt
        · exact .inl (Nat.compare_eq_lt.mpr hlt)
        · exact .inr ⟨Nat.compare_eq_eq.mpr heq, hnames hab hbc⟩
        · exact absurd ⟨⟨pc, pa, hpc, hpa, hgt⟩, hpb, halt, hblt⟩ (h c hc a ha b hb)
    | some pb =>
      cases hpc : initPriority c.name with
      | none =>
        rw [byPriority_none (.inr hpc)] at hbc ⊢
        rw [byPriority_some hpa hpb, Ordering.isLE_then_iff_or] at hab
        rcases hab with hlt | ⟨-, hab⟩
        · by_contra hac
          refine h a ha b hb c hc ⟨⟨pa, pb, hpa, hpb, Nat.compare_eq_lt.mp hlt⟩, hpc,
            name_lt (by rw [hpb, hpc]; simp) hbc, name_lt_of_not_isLE hac⟩
        · exact hnames hab hbc
      | some pc =>
        have hlex : TotalOn (fun x y : SortInfo =>
            (compare ((initPriority x.name).getD 0) ((initPriority y.name).getD 0)).then
              (compare x.name y.name)) s :=
          (TotalOn.key _ s).thenBy fun _ _ => TotalOn.key _ _
        have htrans := hlex.trans a ha b hb c hc
        simp only [hpa, hpb, hpc, Option.getD_some] at htrans
        rw [byPriority_some hpa hpb] at hab
        rw [byPriority_some hpb hpc] at hbc
        rw [byPriority_some hpa hpc]
        exact htrans hab hbc

theorem byPriority_totalOn (h : ∀ a ∈ s, ∀ b ∈ s, ∀ c ∈ s, ¬InitConflict a b c) :
    TotalOn byPriority s where
  refl a _ := by
    cases ha : initPriority a.name with
    | none => rw [byPriority_none (.inl ha), Std.ReflOrd.compare_self]
    | some p =>
      rw [byPriority_some ha ha, Std.ReflOrd.compare_self, Std.ReflOrd.compare_self]
      rfl
  swap a _ b _ := by
    cases ha : initPriority a.name with
    | none =>
      rw [byPriority_none (.inl ha), byPriority_none (.inr ha)]
      exact Std.OrientedCmp.eq_swap
    | some pa =>
      cases hb : initPriority b.name with
      | none =>
        rw [byPriority_none (.inr hb), byPriority_none (.inl hb)]
        exact Std.OrientedCmp.eq_swap
      | some pb =>
        rw [byPriority_some ha hb, byPriority_some hb ha, Ordering.swap_then,
          ← Std.OrientedCmp.eq_swap, ← Std.OrientedCmp.eq_swap]
  trans _ ha _ hb _ hc hab hbc := byPriority_trans ha hb hc h hab hbc

/-- Reversing a rule by init priorities reverses the order. -/
theorem compareSections_initPriority {rule : SortRule} (h : rule.mode = .initPriority)
    (a b : SortInfo) :
    compareSections rule a b = if rule.reverse then byPriority b a else byPriority a b := by
  simp only [compareSections, h, byName, byPriority]
  cases rule.reverse <;> cases initPriority a.name <;> cases initPriority b.name <;> rfl

/-- **Comparing sections.** -/
theorem compareSections_totalOn (rule : SortRule)
    (h : rule.mode = .initPriority → ∀ a ∈ s, ∀ b ∈ s, ∀ c ∈ s, ¬InitConflict a b c) :
    TotalOn (compareSections rule) s := by
  have hname := byName_totalOn rule
  have halign := byAlign_totalOn rule
  cases hmode : rule.mode with
  | none | noSort =>
    exact (TotalOn.const_eq s).congr fun a _ b _ => by simp only [compareSections, hmode]
  | name => exact (hname s).congr fun a _ b _ => by simp only [compareSections, hmode]
  | alignment => exact (halign s).congr fun a _ b _ => by simp only [compareSections, hmode]
  | nameAlignment =>
    exact ((hname s).thenBy fun _ _ => halign _).congr fun a _ b _ => by
      simp only [compareSections, hmode]
  | alignmentName =>
    exact ((halign s).thenBy fun _ _ => hname _).congr fun a _ b _ => by
      simp only [compareSections, hmode]
  | initPriority =>
    have hpriority := byPriority_totalOn (h hmode)
    cases hrev : rule.reverse with
    | false =>
      exact hpriority.congr fun a _ b _ => by
        rw [compareSections_initPriority hmode, hrev, if_neg Bool.false_ne_true]
    | true =>
      exact hpriority.flip.congr fun a _ b _ => by
        rw [compareSections_initPriority hmode, hrev, if_pos rfl]

/-- Where names conflict, init priorities are no order. -/
theorem not_totalOn_of_conflict {rule : SortRule} (hmode : rule.mode = .initPriority) {c : SortInfo}
    (ha : a ∈ s) (hb : b ∈ s) (hc : c ∈ s) (h : InitConflict a b c) :
    ¬TotalOn (compareSections rule) s := by
  intro htotal
  obtain ⟨⟨pa, pb, hpa, hpb, hlt⟩, hpc, hbc, hca⟩ := h
  have hab' : byPriority a b = .lt := by
    rw [byPriority_some hpa hpb, Nat.compare_eq_lt.mpr hlt]
    rfl
  have hbc' : byPriority b c = .lt := by rw [byPriority_none (.inr hpc), hbc]
  have hca' : byPriority c a = .lt := by rw [byPriority_none (.inl hpc), hca]
  -- The three go round in a circle.
  cases hrev : rule.reverse with
  | false =>
    have hcmp : ∀ x y, compareSections rule x y = byPriority x y := fun x y => by
      rw [compareSections_initPriority hmode, hrev, if_neg Bool.false_ne_true]
    have hac := htotal.lt_of_lt_of_isLE ha hb hc (by rw [hcmp, hab']) (by rw [hcmp, hbc']; rfl)
    rw [htotal.swap a ha c hc, hcmp, hca'] at hac
    cases hac
  | true =>
    have hcmp : ∀ x y, compareSections rule x y = byPriority y x := fun x y => by
      rw [compareSections_initPriority hmode, hrev, if_pos rfl]
    have hca := htotal.lt_of_lt_of_isLE hc hb ha (by rw [hcmp, hbc']) (by rw [hcmp, hab']; rfl)
    rw [htotal.swap c hc a ha, hcmp, hca'] at hca
    cases hca

/-! ### Members -/

variable {order : Option (ℕ → ℤ)} {rules : ℕ → Option SortRule} {s t : Set (Entry × SortInfo)}

/-- Three input sections of one description that its rule does not order. -/
structure Conflict (order : Option (ℕ → ℤ)) (rules : ℕ → Option SortRule)
    (x y z : Entry × SortInfo) : Prop where
  inputs : x.2.class_ = 1 ∧ y.2.class_ = 1 ∧ z.2.class_ = 1
  sub : y.1.sub = x.1.sub ∧ z.1.sub = x.1.sub
  key : orderKey order y.2 = orderKey order x.2 ∧ orderKey order z.2 = orderKey order x.2
  rule : ∃ rule, rules x.1.sub = some rule ∧ rule.mode = .initPriority ∧
    (rule.files → (y.2.file = x.2.file ∧ y.2.member = x.2.member) ∧
      z.2.file = x.2.file ∧ z.2.member = x.2.member)
  names : InitConflict x.2 y.2 z.2

theorem byRule_inputs_totalOn (rule : SortRule) (hclass : ∀ x ∈ s, x.2.class_ = 1)
    (h : rule.mode = .initPriority → ∀ x ∈ s, ∀ y ∈ s, ∀ z ∈ s,
      (rule.files → (y.2.file = x.2.file ∧ y.2.member = x.2.member) ∧
        z.2.file = x.2.file ∧ z.2.member = x.2.member) → ¬InitConflict x.2 y.2 z.2) :
    TotalOn (fun x y : Entry × SortInfo => byRule (some rule) x.2 y.2) s := by
  have hsections : ∀ {t : Set (Entry × SortInfo)}, t ⊆ s →
      (∀ x ∈ t, ∀ y ∈ t, rule.files → y.2.file = x.2.file ∧ y.2.member = x.2.member) →
      TotalOn (fun x y : Entry × SortInfo => compareSections rule x.2 y.2) t := by
    intro t hsub hfiles
    refine TotalOn.comap (t := {i | ∃ x ∈ t, x.2 = i}) ?_ Prod.snd fun x hx => ⟨x, hx, rfl⟩
    apply compareSections_totalOn
    rintro hmode _ ⟨x, hx, rfl⟩ _ ⟨y, hy, rfl⟩ _ ⟨z, hz, rfl⟩
    exact h hmode x (hsub hx) y (hsub hy) z (hsub hz) fun hf =>
      ⟨hfiles x hx y hy hf, hfiles x hx z hz hf⟩
  have hcmp : ∀ x ∈ s, ∀ y ∈ s, byRule (some rule) x.2 y.2 =
      (if rule.files then (compare x.2.file y.2.file).then (compare x.2.member y.2.member)
        else .eq).then (compareSections rule x.2 y.2) := by
    intro x hx y hy
    simp only [byRule, hclass x hx, hclass y hy, ne_eq, not_true_eq_false, or_self, if_false]
  cases hf : rule.files with
  | false =>
    refine (hsections Set.Subset.rfl fun x _ y _ hfiles => ?_).congr fun x hx y hy => ?_
    · rw [hf] at hfiles
      cases hfiles
    · rw [hcmp x hx y hy, hf]
      rfl
  | true =>
    have hkeys : TotalOn (fun x y : Entry × SortInfo =>
        (compare x.2.file y.2.file).then (compare x.2.member y.2.member)) s :=
      (TotalOn.key _ s).thenBy fun _ _ => TotalOn.key _ _
    refine (hkeys.thenBy fun a _ => hsections (fun _ hx => hx.1) ?_).congr fun x hx y hy => ?_
    · have hsame : ∀ x : Entry × SortInfo,
          (compare a.2.file x.2.file).then (compare a.2.member x.2.member) = .eq →
          x.2.file = a.2.file ∧ x.2.member = a.2.member := by
        intro x hx
        rw [Ordering.then_eq_eq] at hx
        exact ⟨(name_eq hx.1).symm, (name_eq hx.2).symm⟩
      intro x hx y hy _
      obtain ⟨hxf, hxm⟩ := hsame x hx.2
      obtain ⟨hyf, hym⟩ := hsame y hy.2
      exact ⟨hyf.trans hxf.symm, hym.trans hxm.symm⟩
    · rw [hcmp x hx y hy, hf]
      rfl

/-- Members of one description: generated ones first. -/
theorem byRule_totalOn (rule : Option SortRule)
    (h : ∀ r, rule = some r → r.mode = .initPriority → ∀ x ∈ s, ∀ y ∈ s, ∀ z ∈ s,
      (x.2.class_ = 1 ∧ y.2.class_ = 1 ∧ z.2.class_ = 1) →
      (r.files → (y.2.file = x.2.file ∧ y.2.member = x.2.member) ∧
        z.2.file = x.2.file ∧ z.2.member = x.2.member) → ¬InitConflict x.2 y.2 z.2) :
    TotalOn (fun x y : Entry × SortInfo => byRule rule x.2 y.2) s := by
  cases rule with
  | none =>
    refine (TotalOn.const_eq s).congr fun x _ y _ => ?_
    simp only [byRule, Option.isSome_none, Bool.false_eq_true, if_false, ite_self]
  | some r =>
    let inner : Entry × SortInfo → Entry × SortInfo → Ordering := fun x y =>
      if x.2.class_ ≠ 1 ∨ y.2.class_ ≠ 1 then .eq else byRule (some r) x.2 y.2
    have hclass : TotalOn (fun x y : Entry × SortInfo => compare x.2.class_ y.2.class_) s :=
      TotalOn.key _ s
    have hinner : ∀ a ∈ s, TotalOn inner {b | b ∈ s ∧ compare a.2.class_ b.2.class_ = .eq} := by
      intro a _
      have hsame : ∀ x ∈ {b | b ∈ s ∧ compare a.2.class_ b.2.class_ = .eq},
          x.2.class_ = a.2.class_ := fun x hx => (Nat.compare_eq_eq.mp hx.2).symm
      by_cases ha : a.2.class_ = 1
      · have hone : ∀ x ∈ {b | b ∈ s ∧ compare a.2.class_ b.2.class_ = .eq}, x.2.class_ = 1 :=
          fun x hx => (hsame x hx).trans ha
        refine (byRule_inputs_totalOn r hone ?_).congr fun x hx y hy => ?_
        · intro hmode x hx y hy z hz
          exact h r rfl hmode x hx.1 y hy.1 z hz.1 ⟨hone x hx, hone y hy, hone z hz⟩
        · simp only [inner, hone x hx, hone y hy, ne_eq, not_true_eq_false, or_self, if_false]
      · refine (TotalOn.const_eq _).congr fun x hx y hy => ?_
        simp only [inner, hsame x hx, ne_eq, ha, not_false_eq_true, true_or, if_true]
    refine (hclass.thenBy hinner).congr fun x _ y _ => ?_
    -- Unless both are input sections, only the class counts.
    by_cases hxy : x.2.class_ ≠ 1 ∨ y.2.class_ ≠ 1
    · simp only [byRule, inner, hxy, if_true, Option.isSome_some, Ordering.then_eq]
    · have hsame : compare x.2.class_ y.2.class_ = .eq := by
        obtain ⟨hx, hy⟩ := not_or.mp hxy
        rw [not_not.mp hx, not_not.mp hy]
        rfl
      simp only [inner, hxy, if_false, hsame, Ordering.eq_then]

/-- **The comparator of an output section's members.** -/
theorem entryCmp_totalOn
    (h : ∀ x ∈ s, ∀ y ∈ s, ∀ z ∈ s, ¬Conflict order rules x y z) :
    TotalOn (entryCmp order rules) s := by
  refine (TotalOn.key (fun x : Entry × SortInfo => x.1.sub) s).thenBy fun a _ => ?_
  refine (TotalOn.key (fun x : Entry × SortInfo => decide (2 ≤ x.2.class_)) _).thenBy fun b _ => ?_
  refine (TotalOn.key (fun x : Entry × SortInfo => orderKey order x.2) _).thenBy fun c _ => ?_
  have hlast : ∀ t : Set (Entry × SortInfo), TotalOn (fun x y : Entry × SortInfo =>
      (compare x.2.id y.2.id).then (compare x.2.class_ y.2.class_)) t := fun t =>
    (TotalOn.key _ t).thenBy fun _ _ => TotalOn.key _ _
  refine TotalOn.thenBy ?_ fun _ _ => hlast _
  refine (byRule_totalOn (rules a.1.sub) ?_).congr fun x hx y _ => ?_
  · intro r hr hmode x hx y hy z hz hone hfiles hconflict
    have hsub : ∀ w : Entry × SortInfo, compare a.1.sub w.1.sub = .eq → w.1.sub = a.1.sub :=
      fun w hw => (Nat.compare_eq_eq.mp hw).symm
    have hkey : ∀ w : Entry × SortInfo, compare (orderKey order c.2) (orderKey order w.2) = .eq →
        orderKey order w.2 = orderKey order c.2 := fun w hw =>
      (Std.LawfulEqCmp.eq_of_compare hw).symm
    obtain ⟨⟨⟨hxs, hxsub⟩, -⟩, hxkey⟩ := hx
    obtain ⟨⟨⟨hys, hysub⟩, -⟩, hykey⟩ := hy
    obtain ⟨⟨⟨hzs, hzsub⟩, -⟩, hzkey⟩ := hz
    refine h x hxs y hys z hzs ⟨hone, ⟨?_, ?_⟩, ⟨?_, ?_⟩, ⟨r, ?_, hmode, hfiles⟩, hconflict⟩
    · rw [hsub y hysub, hsub x hxsub]
    · rw [hsub z hzsub, hsub x hxsub]
    · rw [hkey y hykey, hkey x hxkey]
    · rw [hkey z hzkey, hkey x hxkey]
    · rw [hsub x hxsub, hr]
  · obtain ⟨⟨⟨-, hxsub⟩, -⟩, -⟩ := hx
    rw [← Nat.compare_eq_eq.mp hxsub]

variable {x : Entry × SortInfo}

/-- A tie needs one description, one section number and one class. -/
theorem entryCmp_eq {y : Entry × SortInfo} (h : entryCmp order rules x y = .eq) :
    x.1.sub = y.1.sub ∧ x.2.id = y.2.id ∧ x.2.class_ = y.2.class_ := by
  simp only [entryCmp, Ordering.then_eq_eq] at h
  obtain ⟨hsub, -, -, -, hid, hclass⟩ := h
  exact ⟨Nat.compare_eq_eq.mp hsub, Nat.compare_eq_eq.mp hid, Nat.compare_eq_eq.mp hclass⟩

variable {build : Build} {output : ℕ}

theorem mem_members_input (hx : x ∈ build.members output) (hclass : x.2.class_ = 1) :
    ∃ i ∈ build.inputs, x = inputEntry i := by
  unfold Build.members at hx
  rcases List.mem_append.mp hx with hx | hx
  · rcases List.mem_append.mp hx with hx | hx
    · obtain ⟨i, hi, rfl⟩ := List.mem_map.mp hx
      exact ⟨i, (List.mem_filter.mp hi).1, rfl⟩
    · obtain ⟨p, -, rfl⟩ := List.mem_map.mp hx
      simp only [syntheticEntry] at hclass
      split at hclass <;> cases hclass
  · cases hend : build.ehFrameEnd with
    | none =>
      rw [hend] at hx
      cases hx
    | some e =>
      obtain ⟨out, kind, size, align⟩ := e
      rw [hend] at hx
      simp only [Option.elim_some] at hx
      split at hx
      · rw [List.mem_singleton.mp hx] at hclass
        cases hclass
      · cases hx

/-- Ties are between generated sections of one class in one description. -/
theorem cmp_tie (hids : (build.inputs.map InputSection.id).Nodup) {y : Entry × SortInfo}
    (hx : x ∈ build.members output) (hy : y ∈ build.members output) (h : build.cmp output x y = .eq)
    :
    x = y ∨ x.2.class_ ≠ 1 ∧ y.2.class_ = x.2.class_ ∧ y.1.sub = x.1.sub := by
  obtain ⟨hsub, hid, hclass⟩ := entryCmp_eq h
  by_cases hone : x.2.class_ = 1
  · obtain ⟨i, hi, rfl⟩ := mem_members_input hx hone
    obtain ⟨j, hj, rfl⟩ := mem_members_input hy (hclass ▸ hone)
    have hsame : i = j := List.inj_on_of_nodup_map hids hi hj hid
    exact .inl (by rw [hsame])
  · exact .inr ⟨hone, hclass.symm, hsub.symm⟩

/-- **The order of members (proved).**  Unless names conflict under init priorities, the comparator
of the members of an output section is a total preorder that leaves ties between generated sections
only, and the members come in the only arrangement it admits, with ties as they came. -/
theorem buildEntries_sorted (build : Build) (output : ℕ)
    (hids : (build.inputs.map InputSection.id).Nodup)
    (hconflict : ∀ x ∈ build.members output, ∀ y ∈ build.members output,
      ∀ z ∈ build.members output, ¬Conflict (build.order output) (build.rules output) x y z) :
    (∀ (rule : SortRule) (s : Set SortInfo),
      (rule.mode = .initPriority → ∀ a ∈ s, ∀ b ∈ s, ∀ c ∈ s, ¬InitConflict a b c) →
      TotalOn (compareSections rule) s) ∧
    TotalOn (build.cmp output) {x | x ∈ build.members output} ∧
    (∀ x ∈ build.members output, ∀ y ∈ build.members output, build.cmp output x y = .eq →
      x = y ∨ x.2.class_ ≠ 1 ∧ y.2.class_ = x.2.class_ ∧ y.1.sub = x.1.sub) ∧
    ∃ sorted : List ((Entry × SortInfo) × ℕ),
      build.buildEntries output = sorted.map (fun x => x.1.1) ∧
      sorted.Perm (build.members output).zipIdx ∧
      sorted.Pairwise (Before (build.cmp output)) ∧
      ∀ other : List ((Entry × SortInfo) × ℕ), other.Perm (build.members output).zipIdx →
        other.Pairwise (Before (build.cmp output)) → other = sorted := by
  have htotal : TotalOn (build.cmp output) {x | x ∈ build.members output} :=
    entryCmp_totalOn hconflict
  refine ⟨fun rule s => compareSections_totalOn rule, htotal,
    fun x hx y hy => cmp_tie hids hx hy, ?_⟩
  obtain ⟨sorted, hsorted, hperm, hbefore, hunique⟩ := sortBy_spec htotal
  refine ⟨sorted, ?_, hperm, hbefore, hunique⟩
  rw [Build.buildEntries, hsorted, List.map_map]
  rfl

/-- `*(SORT_BY_INIT_PRIORITY(...))` on two numbered sections, with two generated ones. -/
def initBuild : Build where
  inputs :=
    [⟨0, 0, 0, .input 0, ascii "a.o", [], ascii ".init_array.10", 8, 8⟩,
      ⟨1, 0, 0, .input 1, ascii "a.o", [], ascii ".init_array.5", 8, 8⟩]
  synthetic := [⟨0, false, 0, 0, 8, 8⟩, ⟨1, false, 0, 0, 8, 8⟩]
  syntheticId := 1
  ehFrameEnd := none
  descriptions _ := [(0, ⟨some [⟨.initPriority, false⟩], .none⟩)]
  sortSection := .none
  order _ := none

/-- The generated sections come first, as they came, and then 5 before 10. -/
theorem buildEntries_sorted_init :
    TotalOn (initBuild.cmp 0) {x | x ∈ initBuild.members 0} ∧
    (initBuild.buildEntries 0).map Entry.member =
      [.synthetic 0, .synthetic 1, .input 1, .input 0] := by
  have hconflict : ∀ x ∈ initBuild.members 0, ∀ y ∈ initBuild.members 0,
      ∀ z ∈ initBuild.members 0, ¬Conflict (initBuild.order 0) (initBuild.rules 0) x y z := by
    intro x _ y _ z hz hconflict
    have hnumbered : ∀ z ∈ initBuild.members 0, z.2.class_ = 1 → initPriority z.2.name ≠ none := by
      decide
    exact hnumbered z hz hconflict.inputs.2.2 hconflict.names.2.1
  obtain ⟨-, htotal, -, sorted, hsorted, -, -, hunique⟩ :=
    buildEntries_sorted initBuild 0 (by decide) hconflict
  have hsame := hunique ([2, 3, 1, 0].filterMap fun i => (initBuild.members 0).zipIdx[i]?)
    (by decide) (by unfold Before; decide)
  rw [hsorted, ← hsame]
  exact ⟨htotal, by decide⟩

/-- Under init priorities `.init_array.5`, `.init_array.10` and `.init_array.1x` go round in a
circle, and two generated sections of one description tie. -/
theorem not_strict_total :
    ¬TotalOn (compareSections ⟨.initPriority, false, false⟩)
        {s | s.name = ascii ".init_array.5" ∨ s.name = ascii ".init_array.10" ∨
          s.name = ascii ".init_array.1x"} ∧
      ∃ x ∈ initBuild.members 0, ∃ y ∈ initBuild.members 0,
        x ≠ y ∧ initBuild.cmp 0 x y = .eq := by
  refine ⟨?_, ?_⟩
  · let section_ (name : String) : SortInfo := ⟨1, [], [], ascii name, 8, 0⟩
    refine not_totalOn_of_conflict (a := section_ ".init_array.5")
      (b := section_ ".init_array.10") (c := section_ ".init_array.1x") rfl (.inl rfl)
      (.inr (.inl rfl)) (.inr (.inr rfl)) ⟨⟨5, 10, ?_, ?_, by decide⟩, ?_, ?_, ?_⟩
    all_goals decide
  · refine ⟨syntheticEntry 1 ⟨0, false, 0, 0, 8, 8⟩, ?_, syntheticEntry 1 ⟨1, false, 0, 0, 8, 8⟩,
      ?_, ?_, ?_⟩
    all_goals decide

end Qld.Elf.ScriptLayout
