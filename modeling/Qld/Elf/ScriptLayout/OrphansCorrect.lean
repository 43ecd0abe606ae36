import Qld.Elf.ScriptLayout.Orphans

/-!
# What the orphan placer records

An appended orphan only adds its flags; an explicit script also takes its read-only flag, its type and
its alignment into account.

* `Summarizes` — a record as its members have it;
* `Agrees` — an orphan that an output can be given without a trace of the difference;
* `append_eq_iff` — the record stays right exactly then;
* `recorded_run` — if all appended orphans agree, the placer is the one of the script that
  names its sections.
-/

namespace Qld.Elf.ScriptLayout.Orphans

open Qld.Lib Qld.Script

/-! ### Records -/

/-- The record is that of some members: the union of the flags, except that `READONLY` is set if every
member is read-only, the largest alignment, and the type of the first. -/
structure Summarizes (r : Record) (members : List Member) : Prop where
  flags : ∀ i, r.flags.getLsbD i =
    if Sec.READONLY.getLsbD i then members.all (·.flags.getLsbD i)
    else members.any (·.flags.getLsbD i)
  align : r.align = (members.map Member.align).foldl max 1
  type : r.type = members.head?.map Member.type
  hasInput : r.hasInput = true

/-- The record after the members of an output. -/
def recordOf (members : List Member) : Record := members.foldl Record.note Record.blank

theorem recordOf_append (members : List Member) (m : Member) :
    recordOf (members ++ [m]) = (recordOf members).note m := List.foldl_append

theorem getLsbD_note (f g : BitVec 32) (i : ℕ) :
    ((f ||| (g &&& ~~~Sec.READONLY)) &&& (g ||| ~~~Sec.READONLY)).getLsbD i =
      if Sec.READONLY.getLsbD i then f.getLsbD i && g.getLsbD i
      else f.getLsbD i || g.getLsbD i := by
  simp only [BitVec.getLsbD_and, BitVec.getLsbD_or, BitVec.getLsbD_not]
  by_cases hi : i < 32
  · cases Sec.READONLY.getLsbD i <;> simp [hi]
  · simp [BitVec.getLsbD_of_ge _ _ (Nat.le_of_not_lt hi)]

variable {members : List Member}

/-- **The match loop summarizes.** -/
theorem summarizes_recordOf (h : members ≠ []) :
    Summarizes (recordOf members) members := by
  induction members using List.reverseRecOn with
  | nil => exact absurd rfl h
  | append_singleton members m ih =>
    rw [recordOf_append]
    by_cases hnil : members = []
    · subst hnil
      refine ⟨fun i => ?_, rfl, rfl, rfl⟩
      simp [recordOf, Record.note, Record.blank]
    · obtain ⟨hflags, halign, htype, hinput⟩ := ih hnil
      refine ⟨fun i => ?_, ?_, ?_, rfl⟩
      · rw [Record.note, if_pos hinput, getLsbD_note, hflags]
        split <;> simp
      · rw [Record.note, halign, List.map_append, List.foldl_append]
        rfl
      · obtain ⟨first, rest, rfl⟩ := List.exists_cons_of_ne_nil hnil
        rw [Record.note, htype]
        rfl

theorem hasInput_recordOf (h : members ≠ []) :
    (recordOf members).hasInput = true := (summarizes_recordOf h).hasInput

/-- What an appended orphan does to a record. -/
def Record.append (r : Record) (m : Member) : Record :=
  { r with flags := r.flags ||| m.flags, hasInput := true }

/-- The record is not different for an orphan that is appended: it is aligned enough, and read-only
like the orphan, or has nothing of its own. -/
def Agrees (r : Record) (m : Member) : Prop :=
  m.align ≤ r.align ∧
    if r.hasInput then r.flags &&& Sec.READONLY = m.flags &&& Sec.READONLY
    else r.flags ||| m.flags = m.flags ∧ r.type = some m.type

theorem note_flags_eq_iff (f g : BitVec 32) :
    f ||| g = (f ||| (g &&& ~~~Sec.READONLY)) &&& (g ||| ~~~Sec.READONLY) ↔
      f &&& Sec.READONLY = g &&& Sec.READONLY := by
  constructor
  · intro h
    refine BitVec.eq_of_getLsbD_eq fun i hi => ?_
    have hbit := congrArg (·.getLsbD i) h
    simp only [getLsbD_note, BitVec.getLsbD_or] at hbit
    rw [BitVec.getLsbD_and, BitVec.getLsbD_and]
    revert hbit
    cases Sec.READONLY.getLsbD i <;> cases f.getLsbD i <;> cases g.getLsbD i <;> simp
  · intro h
    refine BitVec.eq_of_getLsbD_eq fun i hi => ?_
    have hbit := congrArg (·.getLsbD i) h
    simp only [BitVec.getLsbD_and] at hbit
    rw [getLsbD_note, BitVec.getLsbD_or]
    revert hbit
    cases Sec.READONLY.getLsbD i <;> cases f.getLsbD i <;> cases g.getLsbD i <;> simp

/-- **The record stays right exactly when the orphan agrees with it.** -/
theorem append_eq_iff (members : List Member) (stmt : OutputStmt) (m : Member) :
    ((recordOf members).finish stmt).append m = (recordOf (members ++ [m])).finish stmt ↔
      Agrees ((recordOf members).finish stmt) m := by
  rw [recordOf_append]
  by_cases hnil : members = []
  · -- The first member: the record is the statement's.
    subst hnil
    have hfinish : (recordOf []).finish stmt = ⟨statementFlags stmt, false,
        if stmt.items.any makesSection then some 0 else none, 1⟩ := rfl
    have hmax : 1 = max 1 m.align ↔ m.align ≤ 1 := by omega
    rw [hfinish, Agrees, if_neg (Bool.false_ne_true)]
    simp only [Record.append, Record.note, Record.finish, recordOf, List.foldl_nil, Record.blank,
      Record.mk.injEq, if_true, if_false, Bool.false_eq_true, Option.none_or, true_and, hmax]
    tauto
  · have hinput := hasInput_recordOf hnil
    have htype : (recordOf members).type.or (some m.type) = (recordOf members).type := by
      obtain ⟨first, rest, rfl⟩ := List.exists_cons_of_ne_nil hnil
      rw [(summarizes_recordOf hnil).type]
      rfl
    rw [Record.finish, if_pos hinput, Agrees, if_pos hinput, Record.finish]
    have hmax : (recordOf members).align = max (recordOf members).align m.align ↔
        m.align ≤ (recordOf members).align := by omega
    simp only [Record.append, Record.note, hinput, if_true, htype, Record.mk.injEq, true_and,
      note_flags_eq_iff, hmax]
    exact and_comm

/-! ### The script that names the sections -/

/-- The members of an output. -/
def membersOf (members : List (ℕ × Member)) (output : ℕ) : List Member :=
  (members.filter (·.1 = output)).map (·.2)

theorem membersOf_append (members : List (ℕ × Member)) (output index : ℕ) (m : Member) :
    membersOf (members ++ [(index, m)]) output =
      if index = output then membersOf members output ++ [m] else membersOf members output := by
  rw [membersOf, List.filter_append, List.map_append]
  split
  · next h => simp [membersOf, h]
  · next h => simp [membersOf, h]

theorem getElem?_foldl_note (members : List (ℕ × Member)) (records : List Record) (i : ℕ) :
    (members.foldl (fun records s => records.modify s.1 fun r => r.note s.2) records)[i]? =
      records[i]?.map fun r => (membersOf members i).foldl Record.note r := by
  induction members using List.reverseRecOn with
  | nil => simp [membersOf]
  | append_singleton members s ih =>
    rw [List.foldl_append, List.foldl_cons, List.foldl_nil, List.getElem?_modify, ih,
      membersOf_append]
    split
    · cases records[i]? <;> simp [List.foldl_append]
    · simp

theorem getElem?_matchRecords (stmts : List OutputStmt) (members : List (ℕ × Member)) (i : ℕ) :
    (matchRecords stmts members)[i]? =
      stmts[i]?.map fun stmt => (recordOf (membersOf members i)).finish stmt := by
  rw [matchRecords, List.getElem?_zipWith, getElem?_foldl_note, List.getElem?_map]
  cases stmts[i]? <;> rfl

theorem length_matchRecords (stmts : List OutputStmt) (members : List (ℕ × Member)) :
    (matchRecords stmts members).length = stmts.length := by
  by_contra hne
  have hend := getElem?_matchRecords stmts members
  rcases Nat.lt_or_gt_of_ne hne with h | h
  · have hlast := hend (matchRecords stmts members).length
    rw [List.getElem?_eq_none (Nat.le_refl _), List.getElem?_eq_getElem h] at hlast
    cases hlast
  · have hlast := hend stmts.length
    rw [List.getElem?_eq_none (Nat.le_refl stmts.length), List.getElem?_eq_getElem h] at hlast
    cases hlast

/-- The placer is the one of the script that has its statements and names its sections. -/
structure Explicit (s : State) : Prop where
  records : s.placer.records =
    matchRecords (s.placer.outputs ++ s.placer.orphans) s.members
  enabled : s.placer.enabled.length = s.placer.outputs.length + s.placer.orphans.length
  members : ∀ m ∈ s.members, m.1 < s.placer.outputs.length + s.placer.orphans.length

/-- The orphans that join an output all agree with its record. -/
def AllAgree : State → List Orphan → Prop
  | _, [] => True
  | s, orphan :: orphans =>
    (∀ output, s.placer.joined orphan = some output → ∀ r, s.placer.records[output]? = some r →
      Agrees r orphan.member) ∧ AllAgree (s.step orphan) orphans

theorem start_explicit (script : LayoutScript) (matched : script.Matched)
    (executable relocatable : Bool) : Explicit (script.start matched executable relocatable) := by
  refine ⟨?_, script.sized, fun m hm => ?_⟩
  · rw [LayoutScript.start]
    simp only [List.append_nil]
  · obtain ⟨section_, -, rfl⟩ := List.mem_map.mp hm
    exact section_.1.isLt

variable {orphan : Orphan}

variable {p : Placer} {output : ℕ}

theorem isEnabled_of_mem (h : output ∈ p.sameName orphan) :
    p.isEnabled output = true := by
  rw [Placer.sameName] at h
  generalize hsame : (if orphan.special = true then []
    else (p.byName (p.placedName orphan)).filter p.isEnabled) = same at h
  have hmem : output ∈ same := by
    split at h
    · exact List.mem_mergeSort.mp h
    · exact h
  rw [← hsame] at hmem
  split at hmem
  · exact absurd hmem List.not_mem_nil
  · exact (List.mem_filter.mp hmem).2

theorem joined_lt (h : p.joined orphan = some output) :
    output < p.enabled.length := by
  have henabled : p.isEnabled output = true := by
    rw [Placer.joined] at h
    rcases Option.or_eq_some_iff.mp h with h | ⟨-, h⟩
    · exact isEnabled_of_mem (List.mem_of_find?_eq_some h)
    · split at h
      · obtain ⟨statement, -, hfind⟩ := List.exists_of_findSome?_eq_some h
        cases statement with
        | output i =>
          simp only at hfind
          split at hfind
          · next hcond =>
            obtain rfl := Option.some.inj hfind
            exact ((Bool.and_eq_true _ _).mp hcond).1
          · cases hfind
        | assign _ | assert => cases hfind
      · cases h
  by_contra hge
  rw [Placer.isEnabled, List.getD_eq_default _ _ (Nat.le_of_not_lt hge)] at henabled
  cases henabled

theorem notePosition_fst (p : Placer) (orphan : Orphan) (at_ : ℕ) :
    ∃ note, (p.notePosition orphan at_).1 = { p with firstOrphanNote := note } := by
  rw [Placer.notePosition]
  split
  · exact ⟨_, rfl⟩
  · refine ⟨p.firstOrphanNote, ?_⟩
    split
    · rfl
    · split <;> rfl

/-- A new output comes last, with a record of the orphan. -/
theorem create_spec (p : Placer) (h : orphan.tentative = false) :
    ∃ stmt, (p.create orphan).1.outputs = p.outputs ∧
      (p.create orphan).1.orphans = p.orphans ++ [stmt] ∧
      (p.create orphan).1.records = p.records ++
        [⟨orphan.flags, true, some orphan.shType, orphan.align⟩] ∧
      (p.create orphan).1.enabled = p.enabled ++ [true] ∧
      (p.create orphan).2.1 = p.outputs.length + p.orphans.length := by
  rw [Placer.create]
  obtain ⟨note, hnote⟩ := notePosition_fst p orphan
    (p.holdPosition orphan (p.holdOf orphan.flags orphan.shType))
  simp only [h, Bool.not_false, Bool.and_true, Bool.false_eq_true, if_false]
  split
  · rw [hnote]
    exact ⟨_, rfl, rfl, rfl, rfl, rfl⟩
  · exact ⟨_, rfl, rfl, rfl, rfl, rfl⟩

/-- **One orphan.** -/
theorem Explicit.step {s : State} (h : Explicit s) {orphan : Orphan}
    (htentative : orphan.tentative = false)
    (hagrees : ∀ output, s.placer.joined orphan = some output →
      ∀ r, s.placer.records[output]? = some r → Agrees r orphan.member) :
    Explicit (s.step orphan) := by
  have hlen := congrArg List.length h.records
  rw [length_matchRecords, List.length_append] at hlen
  rw [State.step, Placer.place]
  cases hjoined : s.placer.joined orphan with
  | some output =>
    have hlt : output < s.placer.records.length := by
      rw [hlen, ← h.enabled]
      exact joined_lt hjoined
    simp only [Placer.append, htentative, Bool.false_eq_true, if_false]
    refine ⟨List.ext_getElem? fun i => ?_, h.enabled, fun m hm => ?_⟩
    · rw [List.getElem?_modify, getElem?_matchRecords, membersOf_append]
      have hrecord := congrArg (·[i]?) h.records
      simp only [getElem?_matchRecords] at hrecord
      split
      · next hi =>
        subst hi
        rw [hrecord]
        cases hstmt : (s.placer.outputs ++ s.placer.orphans)[output]? with
        | none => rfl
        | some stmt =>
          rw [hstmt] at hrecord
          exact congrArg some ((append_eq_iff _ stmt orphan.member).mpr
            (hagrees output hjoined _ hrecord))
      · simpa using hrecord
    · rcases List.mem_append.mp hm with hm | hm
      · exact h.members m hm
      · obtain rfl := List.mem_singleton.mp hm
        rw [← hlen]
        exact hlt
  | none =>
    obtain ⟨stmt, houtputs, horphans, hrecords, henabled, hindex⟩ := create_spec s.placer htentative
    simp only
    generalize s.placer.create orphan = created at houtputs horphans hrecords henabled hindex
    have hcount : created.1.outputs.length + created.1.orphans.length =
        s.placer.outputs.length + s.placer.orphans.length + 1 := by
      rw [houtputs, horphans, List.length_append, List.length_singleton, Nat.add_assoc]
    refine ⟨List.ext_getElem? fun i => ?_, ?_, fun m hm => ?_⟩
    · have hrecord := congrArg (·[i]?) h.records
      simp only [getElem?_matchRecords] at hrecord
      rw [hrecords, houtputs, horphans, hindex, getElem?_matchRecords, membersOf_append,
        ← List.append_assoc, List.getElem?_append, List.getElem?_append, hlen,
        List.length_append, hrecord]
      by_cases hi : i < s.placer.outputs.length + s.placer.orphans.length
      · rw [if_pos hi, if_pos hi, if_neg (by omega)]
      · rw [if_neg hi, if_neg hi]
        by_cases hlast : s.placer.outputs.length + s.placer.orphans.length = i
        · -- A new output has no members yet.
          have hnil : membersOf s.members i = [] := by
            refine List.map_eq_nil_iff.mpr (List.filter_eq_nil_iff.mpr fun m hm => ?_)
            have := h.members m hm
            simp only [decide_eq_true_eq]
            omega
          rw [if_pos hlast, hnil, hlast, Nat.sub_self]
          have hmax : max 1 orphan.align = orphan.align := Nat.max_eq_right orphan.aligned
          simp [recordOf, Record.note, Record.blank, Record.finish, Orphan.member, hmax]
        · rw [if_neg hlast, List.getElem?_eq_none (by rw [List.length_singleton]; omega),
            List.getElem?_eq_none (by rw [List.length_singleton]; omega)]
          rfl
    · rw [henabled, hcount, List.length_append, h.enabled, List.length_singleton]
    · rw [hcount]
      rcases List.mem_append.mp hm with hm | hm
      · exact Nat.lt_succ_of_lt (h.members m hm)
      · obtain rfl := List.mem_singleton.mp hm
        rw [hindex]
        exact Nat.lt_succ_self _

variable {s : State}

variable {orphans : List Orphan}

/-- Every orphan on the way agrees with the output that it joins. -/
theorem AllAgree.take (h : AllAgree s orphans) (k : ℕ) :
    AllAgree s (orphans.take k) := by
  induction orphans generalizing s k with
  | nil => rw [List.take_nil]; trivial
  | cons orphan orphans ih =>
    cases k with
    | zero => trivial
    | succ k => exact ⟨h.1, ih h.2 k⟩

theorem Explicit.run (h : Explicit s) (htentative : ∀ orphan ∈ orphans, orphan.tentative = false)
    (hagree : AllAgree s orphans) :
    Explicit (s.run orphans) := by
  induction orphans generalizing s with
  | nil => exact h
  | cons orphan orphans ih =>
    exact ih (h.step (htentative orphan List.mem_cons_self) hagree.1)
      (fun o ho => htentative o (List.mem_cons_of_mem _ ho)) hagree.2

/-- What holds of a state: the records are those of the members, and the next orphan goes where the
script that names all sections has it. -/
def Recorded (s : State) : Prop :=
  (∀ output, membersOf s.members output ≠ [] →
    ∃ r, s.placer.records[output]? = some r ∧ Summarizes r (membersOf s.members output)) ∧
  ∀ orphan, s.placer.place orphan =
    { s.placer with
      records := matchRecords (s.placer.outputs ++ s.placer.orphans) s.members }.place orphan

theorem Explicit.recorded (h : Explicit s) : Recorded s := by
  refine ⟨fun output hne => ?_, fun orphan => by rw [← h.records]⟩
  obtain ⟨m, hm⟩ := List.exists_mem_of_ne_nil _ hne
  obtain ⟨⟨index, m'⟩, hfilter, rfl⟩ := List.mem_map.mp hm
  obtain ⟨hmem, hindex⟩ := List.mem_filter.mp hfilter
  have hlt : output < (s.placer.outputs ++ s.placer.orphans).length := by
    rw [List.length_append, ← of_decide_eq_true hindex]
    exact h.members _ hmem
  refine ⟨recordOf (membersOf s.members output), ?_, summarizes_recordOf hne⟩
  rw [h.records, getElem?_matchRecords, List.getElem?_eq_getElem hlt, Option.map_some,
    Record.finish, if_pos (hasInput_recordOf hne)]

/-- **Runs (proved)**: while the orphans agree with the outputs that they join, every state is
recorded right. -/
theorem recorded_run (script : LayoutScript) (matched : script.Matched)
    (executable relocatable : Bool) (orphans : List Orphan)
    (htentative : ∀ orphan ∈ orphans, orphan.tentative = false)
    (hagree : AllAgree (script.start matched executable relocatable) orphans) (k : ℕ) :
    Recorded ((script.start matched executable relocatable).run (orphans.take k)) :=
  ((start_explicit script matched executable relocatable).run
    (fun orphan ho => htentative orphan (List.mem_of_mem_take ho)) (hagree.take k)).recorded

/-! ### A writable orphan of a read-only output -/

/-- Two outputs, `.ro` and `.foo`. -/
def roAndFoo : LayoutScript where
  statements := [.output 0, .output 1]
  outputs := [⟨ascii ".ro", none, [], none, none, []⟩, ⟨ascii ".foo", none, [], none, none, []⟩]
  enabled := [true, true]
  sized := rfl

/-- A read-only section for each. -/
def readOnlySections : roAndFoo.Matched :=
  [(⟨0, by decide⟩, ⟨ascii ".ro", 0x2, 1, 1⟩), (⟨1, by decide⟩, ⟨ascii ".foo", 0x2, 1, 1⟩)]

/-- An orphan `.foo`. -/
def orphanFoo (flags : BitVec 32) (align : ℕ) (h : 1 ≤ align) : Orphan :=
  ⟨ascii ".foo", 1, flags, align, false, false, h⟩

/-- A read-only orphan joins `.foo`. -/
theorem recorded_readOnly : Recorded ((roAndFoo.start readOnlySections true false).run
    ([orphanFoo 55 1 (by decide)].take 1)) := by
  refine recorded_run roAndFoo readOnlySections true false [orphanFoo 55 1 (by decide)]
    (fun orphan ho => ?_) ⟨fun output h r hr => ?_, trivial⟩ 1
  · obtain rfl := List.mem_singleton.mp ho
    rfl
  · have hjoined : (roAndFoo.start readOnlySections true false).placer.joined
        (orphanFoo 55 1 (by decide)) = some 1 := by decide +kernel
    have hrecord : (roAndFoo.start readOnlySections true false).placer.records[1]? =
        some ⟨55, true, some 1, 1⟩ := by decide +kernel
    obtain rfl := Option.some.inj (hjoined.symm.trans h)
    obtain rfl := Option.some.inj (hrecord.symm.trans hr)
    exact ⟨by decide, by decide⟩

/-- A writable orphan with a larger alignment joins it, which stays read-only; a later `.ro2` then
follows `.foo`, and not `.ro`. -/
theorem writable_foo :
    let s := (roAndFoo.start readOnlySections true false).run [orphanFoo 51 8 (by decide)]
    s.placer.records[1]? = some ⟨55, true, some 1, 1⟩ ∧
    membersOf s.members 1 = [⟨55, 1, 1⟩, ⟨51, 1, 8⟩] ∧ ¬Recorded s := by
  have hrecord : ((roAndFoo.start readOnlySections true false).run
      [orphanFoo 51 8 (by decide)]).placer.records[1]? = some ⟨55, true, some 1, 1⟩ := by
    decide +kernel
  have hmembers : membersOf ((roAndFoo.start readOnlySections true false).run
      [orphanFoo 51 8 (by decide)]).members 1 = [⟨55, 1, 1⟩, ⟨51, 1, 8⟩] := by decide +kernel
  refine ⟨hrecord, hmembers, fun h => ?_⟩
  obtain ⟨r, hr, hsummary⟩ := h.1 1 (by rw [hmembers]; exact List.cons_ne_nil _ _)
  obtain rfl := Option.some.inj (hrecord.symm.trans hr)
  rw [hmembers] at hsummary
  exact absurd hsummary.align (by decide)

end Qld.Elf.ScriptLayout.Orphans
