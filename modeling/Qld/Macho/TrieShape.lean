import Mathlib.Order.Interval.Finset.Nat
import Qld.Macho.Trie

/-!
# The shape of the export trie

* `take_eq_of_between` — names between two that share their first bytes share them;
* `IsGroup` — sorted names that begin with one word;
* `Spells` — the nodes from one index on spell a group of entries;
* `buildNode_spells` — the builder leaves nodes that spell the entries it is given.
-/

namespace Qld.Macho

open Qld.Lib

/-! ### Names in order -/

/-- **Names between two that share their first bytes share them.** -/
theorem take_eq_of_between {a b c : List UInt8} (hab : a ≤ b) (hbc : b ≤ c) {m : ℕ}
    (ha : m ≤ a.length) (h : a.take m = c.take m) : b.take m = a.take m := by
  induction m generalizing a b c with
  | zero => rfl
  | succ m ih =>
    cases a with
    | nil => exact absurd ha (by simp)
    | cons x a =>
      cases c with
      | nil => exact absurd h (by simp)
      | cons z c =>
        rw [List.take_succ_cons, List.take_succ_cons, List.cons.injEq] at h
        obtain ⟨rfl, h⟩ := h
        cases b with
        | nil => exact absurd hab (by simp)
        | cons y b =>
          rw [List.cons_le_cons_iff] at hab hbc
          have hxy : x = y := by
            rcases hab with hab | hab
            · rcases hbc with hbc | hbc
              · exact absurd hbc (Std.Asymm.asymm _ _ hab)
              · exact hbc.1.symm
            · exact hab.1
          subst hxy
          have hlt : ¬ x < x := Std.Irrefl.irrefl x
          rw [List.take_succ_cons, List.take_succ_cons,
            ih (hab.resolve_left hlt).2 (hbc.resolve_left hlt).2 (by simpa using ha) h]

/-- The bytes that two names share, from bytes that they share. -/
theorem commonEnd_spec {a b : List UInt8} {k : ℕ} (ha : k ≤ a.length) (hb : k ≤ b.length)
    (h : a.take k = b.take k) :
    k ≤ commonEnd a b k ∧ commonEnd a b k ≤ a.length ∧
      a.take (commonEnd a b k) = b.take (commonEnd a b k) := by
  fun_induction commonEnd a b k with
  | case1 k hcond ih =>
    obtain ⟨hak, hbk, hbyte⟩ := hcond
    have hnext : a.take (k + 1) = b.take (k + 1) := by
      rw [List.take_add_one, List.take_add_one, h, hbyte]
    obtain ⟨hle, hrest⟩ := ih (by omega) (by omega) hnext
    exact ⟨by omega, hrest⟩
  | case2 k hcond => exact ⟨le_rfl, ha, h⟩

/-- Sorted entries whose names begin with `w`. -/
structure IsGroup (w : List UInt8) (group : List ExportEntry) : Prop where
  sorted : group.Pairwise fun a b => a.name < b.name
  begins : ∀ e ∈ group, w <+: e.name

variable {group : List ExportEntry}

theorem IsGroup.sublist {w : List UInt8} {part : List ExportEntry} (h : IsGroup w group)
    (hpart : part.Sublist group) : IsGroup w part :=
  ⟨h.sorted.sublist hpart, fun e he => h.begins e (hpart.subset he)⟩

/-- **The entry that ends at a node.**  The other names are longer. -/
theorem takeTerminal_spec {w : List UInt8} (h : IsGroup w group) :
    ((takeTerminal group w.length).2.Sublist group) ∧
    (∀ e ∈ (takeTerminal group w.length).2, w.length < e.name.length) ∧
    (((takeTerminal group w.length).1 = none ∧ (takeTerminal group w.length).2 = group) ∨
      ∃ first, (takeTerminal group w.length).1 = some first ∧ first.name = w ∧
        group = first :: (takeTerminal group w.length).2) := by
  cases group with
  | nil => exact ⟨List.Sublist.refl _, fun e he => absurd he List.not_mem_nil, .inl ⟨rfl, rfl⟩⟩
  | cons first rest =>
    obtain ⟨hfirst, hrest⟩ := List.pairwise_cons.mp h.sorted
    have hbegins := h.begins first List.mem_cons_self
    have hlonger : ∀ e ∈ rest, w.length < e.name.length := by
      intro e he
      have hpre := h.begins e (List.mem_cons_of_mem _ he)
      refine lt_of_le_of_ne hpre.length_le fun hlen => ?_
      -- A name that is the word itself would come first.
      have heq := hpre.eq_of_length hlen
      exact absurd (hfirst e he) (List.not_lt.mpr (heq ▸ hbegins.le))
    rw [takeTerminal]
    split
    · next hlen =>
      exact ⟨List.sublist_cons_self _ _, hlonger,
        .inr ⟨first, rfl, (hbegins.eq_of_length hlen.symm).symm, rfl⟩⟩
    · next hlen =>
      refine ⟨List.Sublist.refl _, fun e he => ?_, .inl ⟨rfl, rfl⟩⟩
      rcases List.mem_cons.mp he with rfl | he
      · exact lt_of_le_of_ne hbegins.length_le fun h => hlen h.symm
      · exact hlonger e he

/-! ### Runs -/

section Runs

variable {w : List UInt8} {rest run : List ExportEntry}

theorem runsOf_flatten (shared : ℕ) (rest : List ExportEntry) :
    (runsOf shared rest).flatten = rest := List.flatten_splitBy _ _

theorem mem_runsOf_sublist (h : run ∈ runsOf w.length rest) : run.Sublist rest := by
  rw [← runsOf_flatten w.length rest]
  exact List.sublist_flatten_of_mem h

/-- The first name of a sorted run is the least, the last one the greatest. -/
theorem head_le_getLast (h : IsGroup w run) {head e : ExportEntry} (hhead : run.head? = some head)
    (hne : run ≠ []) (he : e ∈ run) :
    head.name ≤ e.name ∧ e.name ≤ (run.getLast hne).name := by
  constructor
  · obtain ⟨tail, rfl⟩ := List.head?_eq_some_iff.mp hhead
    rcases List.mem_cons.mp he with rfl | he
    · exact List.le_refl _
    · exact List.le_of_lt ((List.pairwise_cons.mp h.sorted).1 e he)
  · rw [← List.dropLast_append_getLast hne] at he
    rcases List.mem_append.mp he with he | he
    · have hsorted := h.sorted
      rw [← List.dropLast_append_getLast hne, List.pairwise_append] at hsorted
      exact List.le_of_lt (hsorted.2.2 e he _ (List.mem_singleton_self _))
    · rw [List.mem_singleton.mp he]
      exact List.le_refl _

/-- **The label of a run.**  It is not empty, and all names of the run begin with it. -/
theorem run_spec (h : IsGroup w rest) (hlonger : ∀ e ∈ rest, w.length < e.name.length)
    (hrun : run ∈ runsOf w.length rest) :
    runLabel w.length run ≠ [] ∧ runEnd w.length run = (w ++ runLabel w.length run).length ∧
      IsGroup (w ++ runLabel w.length run) run := by
  have hsub := mem_runsOf_sublist hrun
  have hgroup := h.sublist hsub
  have hne : run ≠ [] := List.ne_nil_of_mem_splitBy hrun
  obtain ⟨head, tail, rfl⟩ := List.exists_cons_of_ne_nil hne
  have hlast := List.getLast_mem hne
  have hword : ∀ e ∈ head :: tail, e.name.take w.length = w := fun e he =>
    (List.prefix_iff_eq_take.mp (hgroup.begins e he)).symm
  have hbyte := @splitBy_same _ _ _ _ (fun e : ExportEntry => e.name[w.length]?) _ _ hrun _ _
    List.mem_cons_self hlast
  have hshared : head.name.take (w.length + 1) =
      ((head :: tail).getLast hne).name.take (w.length + 1) := by
    rw [List.take_add_one, List.take_add_one, hword _ hlast, hword _ List.mem_cons_self, hbyte]
  obtain ⟨hlt, hle, htake⟩ := commonEnd_spec
    (hlonger head (hsub.subset List.mem_cons_self)) (hlonger _ (hsub.subset hlast)) hshared
  have hend : runEnd w.length (head :: tail) =
      commonEnd head.name ((head :: tail).getLast hne).name (w.length + 1) := by
    rw [runEnd, List.getLast?_eq_some_getLast hne]
    rfl
  rw [← hend] at hlt hle htake
  have hlabel : w ++ runLabel w.length (head :: tail) =
      head.name.take (runEnd w.length (head :: tail)) := by
    rw [runLabel, slice, if_pos ⟨by omega, hle⟩]
    have hsplit := List.take_add (l := head.name) (i := w.length)
      (j := runEnd w.length (head :: tail) - w.length)
    rw [hword head List.mem_cons_self, Nat.add_sub_cancel' (by omega)] at hsplit
    exact hsplit.symm
  have hlength : (w ++ runLabel w.length (head :: tail)).length =
      runEnd w.length (head :: tail) := by
    rw [hlabel, List.length_take, Nat.min_eq_left hle]
  refine ⟨fun hnil => ?_, hlength.symm, hgroup.sorted, fun e he => ?_⟩
  · rw [hnil, List.append_nil] at hlength
    omega
  · obtain ⟨hfirst, hfinal⟩ := head_le_getLast hgroup rfl hne he
    rw [hlabel, ← take_eq_of_between hfirst hfinal hle htake]
    exact List.take_prefix _ _

theorem lt_of_append_lt {w a b : List UInt8} (h : w ++ a < w ++ b) : a < b := by
  induction w with
  | nil => exact h
  | cons x w ih =>
    rw [List.cons_append, List.cons_append, List.cons_lt_cons_iff] at h
    exact ih (h.resolve_left (Std.Irrefl.irrefl x)).2

theorem byte_lt_of_name_lt {a b : List UInt8} (hab : a < b) (ha : w <+: a) (hb : w <+: b)
    (hla : w.length < a.length) (hlb : w.length < b.length) :
    ∃ x y, a[w.length]? = some x ∧ b[w.length]? = some y ∧ (x = y ∨ x < y) := by
  obtain ⟨a, rfl⟩ := ha
  obtain ⟨b, rfl⟩ := hb
  cases a with
  | nil => exact absurd hla (by simp)
  | cons x a =>
    cases b with
    | nil => exact absurd hlb (by simp)
    | cons y b =>
      refine ⟨x, y, by simp, by simp, ?_⟩
      rcases List.cons_lt_cons_iff.mp (lt_of_append_lt hab) with hlt | ⟨heq, -⟩
      · exact .inr hlt
      · exact .inl heq

/-- Bytes after a word, in order. -/
def ByteLt (x y : Option UInt8) : Prop := ∃ a b, x = some a ∧ y = some b ∧ a < b

instance : IsTrans (Option UInt8) ByteLt where
  trans := by
    intro x y z ⟨a, b, hx, hy, hab⟩ ⟨b', c, hy', hz, hbc⟩
    rw [hy, Option.some.injEq] at hy'
    exact ⟨a, c, hx, hz, Std.lt_trans hab (hy' ▸ hbc)⟩

/-- The byte of a run after the word. -/
def runByte (shared : ℕ) (run : List ExportEntry) : ℕ :=
  (run.head?.bind fun e => e.name[shared]?).elim 0 UInt8.toNat

/-- **A node has at most 255 edges**, when no name has a NUL. -/
theorem runsOf_length (h : IsGroup w rest) (hlonger : ∀ e ∈ rest, w.length < e.name.length)
    (hnul : ∀ e ∈ rest, 0 ∉ e.name) : (runsOf w.length rest).length ≤ 255 := by
  have hsorted : rest.Pairwise fun a b => a.name[w.length]? = b.name[w.length]? ∨
      ByteLt a.name[w.length]? b.name[w.length]? := by
    refine h.sorted.imp_of_mem fun {a b} ha hb hab => ?_
    obtain ⟨x, y, hx, hy, hxy⟩ := byte_lt_of_name_lt hab (h.begins a ha) (h.begins b hb)
      (hlonger a ha) (hlonger b hb)
    rcases hxy with rfl | hlt
    · exact .inl (hx.trans hy.symm)
    · exact .inr ⟨x, y, hx, hy, hlt⟩
  have hruns := @splitBy_pairwise _ _ _ _ (fun e : ExportEntry => e.name[w.length]?) ByteLt _ _
    hsorted
  have hbytes : ((runsOf w.length rest).map (runByte w.length)).Nodup := by
    refine List.pairwise_map.mpr (hruns.imp_of_mem fun {g k} hg hk hlt => ?_)
    obtain ⟨a, g, rfl⟩ := List.exists_cons_of_ne_nil (List.ne_nil_of_mem_splitBy hg)
    obtain ⟨b, k, rfl⟩ := List.exists_cons_of_ne_nil (List.ne_nil_of_mem_splitBy hk)
    obtain ⟨x, y, hx, hy, hxy⟩ := hlt a List.mem_cons_self b List.mem_cons_self
    simp only [runByte, List.head?_cons, Option.bind_some, hx, hy, Option.elim_some]
    exact (UInt8.lt_iff_toNat_lt.mp hxy).ne
  have hrange : ((runsOf w.length rest).map (runByte w.length)).toFinset ⊆ Finset.Icc 1 255 := by
    intro n hn
    rw [List.mem_toFinset, List.mem_map] at hn
    obtain ⟨run, hrun, rfl⟩ := hn
    obtain ⟨e, tail, rfl⟩ := List.exists_cons_of_ne_nil (List.ne_nil_of_mem_splitBy hrun)
    have he := (mem_runsOf_sublist hrun).subset List.mem_cons_self
    obtain ⟨x, hget⟩ : ∃ x, e.name[w.length]? = some x :=
      ⟨_, List.getElem?_eq_getElem (hlonger e he)⟩
    simp only [runByte, List.head?_cons, Option.bind_some, hget, Option.elim_some]
    have hlt := UInt8.toNat_lt x
    have hpos : x.toNat ≠ 0 := by
      intro hzero
      rw [show x = 0 from UInt8.toNat_inj.mp hzero] at hget
      exact hnul e he (List.mem_of_getElem? hget)
    rw [Finset.mem_Icc]
    omega
  have hcard := Finset.card_le_card hrange
  rw [List.toFinset_card_of_nodup hbytes, List.length_map, Nat.card_Icc] at hcard
  exact hcard

end Runs

/-! ### Nodes that spell entries -/

/-- The edges of a node whose name is `w` lead to nodes that spell the entries, from index `start`
to `stop`; `spells` says what a child spells. -/
def EdgesSpell (spells : ℕ → List UInt8 → List ExportEntry → ℕ → Prop) (w : List UInt8) :
    List (List UInt8 × ℕ) → List ExportEntry → ℕ → ℕ → Prop
  | [], rest, start, stop => rest = [] ∧ start = stop
  | (label, child) :: edges, rest, start, stop =>
    ∃ run later mid, rest = run ++ later ∧ child = start ∧ 0 ∉ label ∧
      spells child (w ++ label) run mid ∧ EdgesSpell spells w edges later mid stop

/-- The nodes from `index` to `stop` spell the entries of a group, whose names begin with `w`; the
depth is bounded. -/
def Spells (nodes : List Node) : ℕ → ℕ → List UInt8 → List ExportEntry → ℕ → Prop
  | 0, _, _, _, _ => False
  | depth + 1, index, w, group, stop =>
    ∃ node rest, nodes[index]? = some node ∧ node.edges.length ≤ 255 ∧
      ((node.terminal = none ∧ rest = group) ∨
        ∃ first, node.terminal = some (terminalBytes first) ∧ first.name = w ∧
          group = first :: rest) ∧
      EdgesSpell (Spells nodes depth) w node.edges rest (index + 1) stop

/-- One step of the loop over the runs of node `index`. -/
def pushRun (fuel shared index : ℕ) (nodes : List Node) (run : List ExportEntry) : List Node :=
  buildNode fuel run (runEnd shared run) nodes.length
    ((nodes ++ [({} : Node)]).modify index fun n =>
      { n with edges := n.edges ++ [(runLabel shared run, nodes.length)] })

theorem buildNode_none {shared : ℕ} (h : (takeTerminal group shared).1 = none) (fuel index : ℕ)
    (nodes : List Node) :
    buildNode (fuel + 1) group shared index nodes =
      (runsOf shared (takeTerminal group shared).2).foldl (pushRun fuel shared index) nodes := by
  simp only [buildNode, h]
  rfl

theorem buildNode_some {shared : ℕ} {first : ExportEntry}
    (h : (takeTerminal group shared).1 = some first) (fuel index : ℕ) (nodes : List Node) :
    buildNode (fuel + 1) group shared index nodes =
      (runsOf shared (takeTerminal group shared).2).foldl (pushRun fuel shared index)
        (nodes.modify index fun n => { n with terminal := some (terminalBytes first) }) := by
  simp only [buildNode, h]
  rfl

theorem modify_append_cons {α : Type*} (before : List α) (a : α) (after : List α) (f : α → α) :
    (before ++ a :: after).modify before.length f = before ++ f a :: after := by
  rw [List.modify_eq_take_drop, List.take_left, List.drop_left]
  rfl

section Build

variable {w : List UInt8}

/-- What the builder does for one node, for a group it can finish with this fuel: it puts nodes in
place of the last one, and they spell the group wherever the nodes before them come from. -/
def Builds (fuel : ℕ) (w : List UInt8) (group : List ExportEntry) : Prop :=
  ∀ before : List Node, ∃ arena : List Node,
    buildNode fuel group w.length before.length (before ++ [({} : Node)]) = before ++ arena ∧
      (∀ n ∈ arena, n.offset = 0) ∧ ∀ before' after : List Node, before'.length = before.length →
        Spells (before' ++ arena ++ after) fuel before.length w group
          (before.length + arena.length)

theorem pushRuns_spec {fuel : ℕ} (runs : List (List ExportEntry))
    (hruns : ∀ run ∈ runs, runEnd w.length run = (w ++ runLabel w.length run).length ∧
      0 ∉ runLabel w.length run ∧ Builds fuel (w ++ runLabel w.length run) run) :
    ∀ (before : List Node) (node : Node) (done : List Node),
      ∃ edges arena, runs.foldl (pushRun fuel w.length before.length) (before ++ node :: done) =
          before ++ { node with edges := node.edges ++ edges } :: (done ++ arena) ∧
        edges.length = runs.length ∧ (∀ n ∈ arena, n.offset = 0) ∧
        ∀ before' after : List Node, before'.length = before.length + 1 + done.length →
          EdgesSpell (Spells (before' ++ arena ++ after) fuel) w edges runs.flatten before'.length
            (before'.length + arena.length) := by
  induction runs with
  | nil =>
    intro before node done
    refine ⟨[], [], by simp, rfl, by simp, fun before' after _ => ?_⟩
    exact ⟨rfl, by simp⟩
  | cons run runs ih =>
    intro before node done
    obtain ⟨hend, hnul, hbuild⟩ := hruns run List.mem_cons_self
    obtain ⟨child, hchild⟩ : ∃ child, child = before.length + 1 + done.length := ⟨_, rfl⟩
    have hlen : ∀ n : Node, (before ++ n :: done).length = child := fun n => by
      rw [List.length_append, List.length_cons, hchild]
      omega
    generalize hlabel : runLabel w.length run = label at *
    generalize hnode : { node with edges := node.edges ++ [(label, child)] } = node'
    -- The run's node stands after those of the runs before it.
    obtain ⟨arena, hbuilt, hzero, hspells⟩ := hbuild (before ++ node' :: done)
    rw [hlen] at hbuilt hspells
    obtain ⟨edges, arena', hrest, hcount, hzero', hedges⟩ := ih
      (fun r hr => hruns r (List.mem_cons_of_mem _ hr)) before node' (done ++ arena)
    refine ⟨(label, child) :: edges, arena ++ arena', ?_, ?_, ?_, ?_⟩
    · rw [List.foldl_cons, pushRun, hlabel, hend, hlen, List.append_assoc, List.cons_append,
        modify_append_cons, hnode, ← List.cons_append, ← List.append_assoc, hbuilt,
        List.append_assoc, List.cons_append, hrest, ← hnode, List.append_assoc, List.append_assoc]
      rfl
    · rw [List.length_cons, List.length_cons, hcount]
    · intro n hn
      rcases List.mem_append.mp hn with hn | hn
      · exact hzero n hn
      · exact hzero' n hn
    · intro before' after hbefore
      have hbefore' : before'.length = child := hbefore.trans hchild.symm
      refine ⟨run, runs.flatten, child + arena.length, rfl, hbefore'.symm, hnul, ?_, ?_⟩
      · have := hspells before' (arena' ++ after) hbefore'
        rw [List.append_assoc, ← List.append_assoc arena] at this
        rwa [List.append_assoc]
      · have := hedges (before' ++ arena) after (by
          rw [List.length_append, List.length_append, hbefore]
          omega)
        rw [List.length_append, hbefore', List.append_assoc before' arena arena'] at this
        rwa [hbefore', List.length_append, ← Nat.add_assoc]

/-- **The builder leaves nodes that spell the entries**, when its fuel exceeds the bytes
that are left of each name. -/
theorem buildNode_spells (fuel : ℕ) :
    ∀ {w : List UInt8} {group : List ExportEntry}, IsGroup w group →
      (∀ e ∈ group, 0 ∉ e.name ∧ e.name.length - w.length < fuel) → group ≠ [] →
      Builds fuel w group := by
  induction fuel with
  | zero =>
    intro w group _ hshort hne
    obtain ⟨e, he⟩ := List.exists_mem_of_ne_nil _ hne
    exact absurd (hshort e he).2 (Nat.not_lt_zero _)
  | succ fuel ih =>
    intro w group h hshort hne before
    obtain ⟨hsub, hlonger, hterminal⟩ := takeTerminal_spec h
    have hrest := h.sublist hsub
    have hruns : ∀ run ∈ runsOf w.length (takeTerminal group w.length).2,
        runEnd w.length run = (w ++ runLabel w.length run).length ∧
          0 ∉ runLabel w.length run ∧ Builds fuel (w ++ runLabel w.length run) run := by
      intro run hrun
      obtain ⟨hlabel, hend, hgroup⟩ := run_spec hrest hlonger hrun
      have hne' : run ≠ [] := List.ne_nil_of_mem_splitBy hrun
      have hmem : ∀ e ∈ run, e ∈ group := fun e he =>
        hsub.subset ((mem_runsOf_sublist hrun).subset he)
      refine ⟨hend, fun hzero => ?_, ih hgroup (fun e he => ?_) hne'⟩
      · obtain ⟨e, he⟩ := List.exists_mem_of_ne_nil _ hne'
        exact (hshort e (hmem e he)).1
          ((hgroup.begins e he).subset (List.mem_append_right _ hzero))
      · have hlen := (hshort e (hmem e he)).2
        have hpos := List.length_pos_of_ne_nil hlabel
        have hlong := (hgroup.begins e he).length_le
        rw [List.length_append] at hlong ⊢
        exact ⟨(hshort e (hmem e he)).1, by omega⟩
    have hcount := runsOf_length hrest hlonger fun e he => (hshort e (hsub.subset he)).1
    -- The node, before its edges are pushed.
    obtain ⟨node, hnode, hempty, hoffset, hspelled⟩ : ∃ node : Node,
        buildNode (fuel + 1) group w.length before.length (before ++ [({} : Node)]) =
          (runsOf w.length (takeTerminal group w.length).2).foldl
            (pushRun fuel w.length before.length) (before ++ [node]) ∧ node.edges = [] ∧
        node.offset = 0 ∧ ((node.terminal = none ∧ (takeTerminal group w.length).2 = group) ∨
          ∃ first, node.terminal = some (terminalBytes first) ∧ first.name = w ∧
            group = first :: (takeTerminal group w.length).2) := by
      rcases hterminal with ⟨hnone, hsame⟩ | ⟨first, hsome, hname, hgroup⟩
      · exact ⟨{}, buildNode_none hnone _ _ _, rfl, rfl, .inl ⟨rfl, hsame⟩⟩
      · refine ⟨{ terminal := some (terminalBytes first) }, ?_, rfl, rfl,
          .inr ⟨first, rfl, hname, hgroup⟩⟩
        rw [buildNode_some hsome, modify_append_cons]
    obtain ⟨edges, arena, hbuilt, hlen, hzero, hedges⟩ := pushRuns_spec _ hruns before node []
    rw [hempty, List.nil_append, List.nil_append] at hbuilt
    refine ⟨{ node with edges := edges } :: arena, ?_, ?_, fun before' after hbefore => ?_⟩
    · rw [← hbuilt, hnode]
    · intro n hn
      rcases List.mem_cons.mp hn with rfl | hn
      · exact hoffset
      · exact hzero n hn
    · refine ⟨{ node with edges := edges }, (takeTerminal group w.length).2, ?_,
        hlen.trans_le hcount, hspelled, ?_⟩
      · rw [← hbefore, List.append_assoc, List.getElem?_append_right le_rfl, Nat.sub_self]
        rfl
      · have := hedges (before' ++ [{ node with edges := edges }]) after (by
          rw [List.length_append, hbefore]
          rfl)
        rw [List.length_append, hbefore, List.append_assoc before', runsOf_flatten] at this
        rw [List.length_cons, Nat.add_comm arena.length, ← Nat.add_assoc]
        exact this

end Build

/-! ### What spelling implies -/

section Implied

variable {nodes : List Node}

/-- The children of the nodes between two indices lie after them, below `stop`. -/
def ChildrenWithin (nodes : List Node) (start stop : ℕ) : Prop :=
  ∀ i, start ≤ i → i < stop → ∃ node, nodes[i]? = some node ∧ node.edges.length ≤ 255 ∧
    ∀ edge ∈ node.edges, 0 ∉ edge.1 ∧ i < edge.2 ∧ edge.2 < stop

theorem EdgesSpell.children {spells : ℕ → List UInt8 → List ExportEntry → ℕ → Prop}
    {w : List UInt8}
    (hchild : ∀ i v run stop, spells i v run stop → i < stop ∧ ChildrenWithin nodes i stop)
    (edges : List (List UInt8 × ℕ)) :
    ∀ {rest : List ExportEntry} {start stop : ℕ}, EdgesSpell spells w edges rest start stop →
      start ≤ stop ∧ ChildrenWithin nodes start stop ∧
        ∀ edge ∈ edges, 0 ∉ edge.1 ∧ start ≤ edge.2 ∧ edge.2 < stop := by
  induction edges with
  | nil =>
    intro rest start stop ⟨_, hstop⟩
    exact ⟨hstop.le, fun i hi hlt => by omega, by simp⟩
  | cons edge edges ih =>
    intro rest start stop ⟨run, later, mid, _, hstart, hnul, hspell, hedges⟩
    obtain ⟨hlt, hfirst⟩ := hchild _ _ _ _ hspell
    obtain ⟨hle, hwithin, hlater⟩ := ih hedges
    rw [hstart] at hlt hfirst
    refine ⟨by omega, fun i hi hstop => ?_, fun e he => ?_⟩
    · by_cases hmid : i < mid
      · obtain ⟨node, hnode, hcount, hall⟩ := hfirst i hi hmid
        exact ⟨node, hnode, hcount, fun e he =>
          ⟨(hall e he).1, (hall e he).2.1, (hall e he).2.2.trans_le hle⟩⟩
      · exact hwithin i (by omega) hstop
    · rcases List.mem_cons.mp he with rfl | he
      · exact ⟨hnul, hstart.ge, hstart.trans_lt (hlt.trans_le hle)⟩
      · obtain ⟨hn, hge, hlt'⟩ := hlater e he
        exact ⟨hn, by omega, hlt'⟩

/-- **Children lie after their node.** -/
theorem Spells.children (depth : ℕ) :
    ∀ (index : ℕ) (w : List UInt8) (group : List ExportEntry) (stop : ℕ),
      Spells nodes depth index w group stop → index < stop ∧ ChildrenWithin nodes index stop := by
  induction depth with
  | zero => intro index w group stop h; exact absurd h id
  | succ depth ih =>
    intro index w group stop ⟨node, rest, hnode, hcount, _, hedges⟩
    obtain ⟨hle, hwithin, hchildren⟩ := EdgesSpell.children ih _ hedges
    refine ⟨by omega, fun i hi hstop => ?_⟩
    by_cases heq : i = index
    · rw [heq]
      exact ⟨node, hnode, hcount, fun e he => ⟨(hchildren e he).1, by
        have := (hchildren e he).2.1
        omega, (hchildren e he).2.2⟩⟩
    · exact hwithin i (by omega) hstop

end Implied

end Qld.Macho
