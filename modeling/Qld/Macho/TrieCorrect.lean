import Qld.Macho.TrieOffsets

/-!
# The export trie round trip

The model of `macho/read/trie.rs`.  A node is a ULEB128 terminal size, the terminal information when
that size is not zero, a child count byte, and for each child a NUL-terminated edge label and a
ULEB128 node offset.

* `Pending`, `IterState` — the nodes waiting to be visited, the first of them next; the nodes that
  were visited, as a list;
* `visit` — one node; `readChildren` — its edges;
* `exports` — the items of `ExportTrieIter` until it returns `None`; its fuel bounds the nodes;
* `exportOf` — the export that the reader should find for an entry;
* `Laid` — nodes at their offsets in the bytes;
* `visit_node` — what the reader does at a node;
* `exportsFrom_spells` — the reader finds the entries that nodes spell, in order;
* `build_roundTrip` — the loop ends, and the reader finds exactly the entries.
-/

namespace Qld.Macho

open Qld.Lib

namespace Read

/-- What an export resolves to. -/
inductive ExportTarget where
  | address (address : ℕ)
  | reexport (ordinal : ℕ) (name : List UInt8)
  | stubAndResolver (stub resolver : ℕ)
  deriving DecidableEq, Repr

structure Export where
  name : List UInt8
  flags : ℕ
  target : ExportTarget
  deriving DecidableEq, Repr

/-- A node waiting to be visited. -/
structure Pending where
  node : ℕ
  /-- Length of the parent's name. -/
  parent : ℕ
  /-- The edge label, as a range of the trie. -/
  labelStart : ℕ
  labelEnd : ℕ
  deriving DecidableEq, Repr

/-- Where a node is malformed, and how. -/
abbrev Malformed := ℕ × String

structure IterState where
  stack : List Pending
  name : List UInt8
  visited : List ℕ

/-- `ok_or`. -/
def okOr {α : Type} (error : Malformed) : Option α → Except Malformed α
  | some a => .ok a
  | none => .error error

/-- The export of a terminal node, from its information at `pos`. -/
def readTerminal (info : List UInt8) (pos : ℕ) (name : List UInt8) : Except Malformed Export := do
  let (flags, p) := readUleb info 0
  let flags ← okOr (pos, "truncated flags") flags
  if flags &&& EXPORT_SYMBOL_FLAGS_REEXPORT.toNat ≠ 0 then
    let (ordinal, p) := readUleb info p
    let ordinal ← okOr (pos, "truncated ordinal") ordinal
    let imported ← okOr (pos, "unterminated re-export name") (cstr (info.drop p))
    return ⟨name, flags, .reexport ordinal imported⟩
  else
    let (address, p) := readUleb info p
    let address ← okOr (pos, "truncated address") address
    if flags &&& EXPORT_SYMBOL_FLAGS_STUB_AND_RESOLVER.toNat ≠ 0 then
      let resolver ← okOr (pos, "truncated resolver") (readUleb info p).1
      return ⟨name, flags, .stubAndResolver address resolver⟩
    else return ⟨name, flags, .address address⟩

/-- The export of a node whose terminal information has `size` bytes. -/
def readExport (data : List UInt8) (pos size : ℕ) (name : List UInt8) :
    Except Malformed (Option Export) :=
  if size ≠ 0 then (readTerminal (slice data pos (pos + size)) pos name).map some else .ok none

/-- The children of a node whose name has `parent` bytes, from `pos` on. -/
def readChildren (data : List UInt8) (parent : ℕ) : ℕ → ℕ → Except Malformed (List Pending)
  | 0, _ => .ok []
  | count + 1, pos => do
    let label ← okOr (pos, "unterminated edge label") (cstr (data.drop pos))
    let labelEnd := pos + label.length
    let (child, next) := readUleb data (labelEnd + 1)
    let child ← okOr (next, "truncated child offset") child
    if data.length ≤ child then throw (next, "child offset out of range")
    -- No valid name is longer than the trie that spells it.
    if data.length < parent + label.length then throw (next, "name longer than the trie")
    let children ← readChildren data parent count next
    return ⟨child, parent, pos, labelEnd⟩ :: children

/-- Visits one node: pushes its children and returns its export, if it is terminal. -/
def visit (data : List UInt8) (pending : Pending) (s : IterState) :
    Except Malformed (Option Export × IterState) := do
  let node := pending.node
  -- The bits of the visited nodes are in whole bytes.
  if (data.length + 7) / 8 ≤ node / 8 then throw (node, "node offset out of range")
  if node ∈ s.visited then throw (node, "node reached twice")
  let name := s.name.take pending.parent ++ slice data pending.labelStart pending.labelEnd
  let (terminalSize, pos) := readUleb data node
  let terminalSize ← okOr (node, "truncated node") terminalSize
  let childrenAt := pos + terminalSize
  if data.length ≤ childrenAt then throw (node, "terminal size")
  let exported ← readExport data pos terminalSize name
  let count ← okOr (childrenAt, "truncated child count") data[childrenAt]?
  let children ← readChildren data name.length count.toNat (childrenAt + 1)
  return (exported, ⟨children ++ s.stack, name, node :: s.visited⟩)

/-- What the iterator returns from a state, until it returns `None`; `none` if the fuel does not
suffice.  An error ends the iteration. -/
def exportsFrom (data : List UInt8) : ℕ → IterState → Option (List (Except Malformed Export))
  | 0, _ => none
  | fuel + 1, s =>
    match s.stack with
    | [] => some []
    | pending :: stack =>
      match visit data pending { s with stack := stack } with
      | .error e => some [.error e]
      | .ok (some found, s) => (exportsFrom data fuel s).map (.ok found :: ·)
      | .ok (none, s) => exportsFrom data fuel s

/-- The items of the iterator over a trie. -/
def exports (fuel : ℕ) (data : List UInt8) : Option (List (Except Malformed Export)) :=
  exportsFrom data fuel ⟨if data.isEmpty then [] else [⟨0, 0, 0, 0⟩], [], []⟩

end Read

open Read

/-- What the reader should find for an entry. -/
def exportOf (entry : ExportEntry) : Export where
  name := entry.name
  flags := entry.flags.toNat
  target := if entry.flags &&& EXPORT_SYMBOL_FLAGS_REEXPORT ≠ 0 then
    .reexport entry.address.toNat [] else .address entry.address.toNat

/-! ### Terminal information -/

theorem toNat_and_ne_zero {a b : UInt64} : (a.toNat &&& b.toNat ≠ 0) ↔ (a &&& b ≠ 0) := by
  rw [← UInt64.toNat_and, ne_eq, ne_eq, ← UInt64.toNat_inj]
  rfl

theorem terminalBytes_length (entry : ExportEntry) :
    0 < (terminalBytes entry).length ∧ (terminalBytes entry).length < 2 ^ 64 := by
  have hsmall : ∀ v : UInt64, ulebSize v.toNat ≤ 10 := by
    intro v
    have hsize : v.toNat.size ≤ 64 := Nat.size_le.mpr v.toNat_lt
    rw [ulebSize]
    omega
  have hflags := hsmall entry.flags
  have haddress := hsmall entry.address
  have hpos := ulebSize_pos entry.flags.toNat
  rw [terminalBytes, List.length_append, List.length_append, length_pushUleb, length_pushUleb]
  split
  · rw [List.length_singleton]
    omega
  · rw [List.length_nil]
    omega

/-- **The reader gives the information of an entry back.** -/
theorem readTerminal_terminalBytes {entry : ExportEntry}
    (hstub : entry.flags &&& EXPORT_SYMBOL_FLAGS_STUB_AND_RESOLVER = 0) (pos : ℕ) :
    readTerminal (terminalBytes entry) pos entry.name = .ok (exportOf entry) := by
  have hinfo : terminalBytes entry = [] ++ (pushUleb entry.flags.toNat ++
      (pushUleb entry.address.toNat ++
        if entry.flags &&& EXPORT_SYMBOL_FLAGS_REEXPORT ≠ 0 then [0] else [])) := by
    rw [terminalBytes, List.nil_append, List.append_assoc]
  have hflags := readUleb_pushUleb hinfo (rfl : ([] : List UInt8).length = 0) entry.flags.toNat_lt
  have haddress := readUleb_pushUleb (hinfo.trans (List.nil_append _)) rfl entry.address.toNat_lt
  rw [List.length_nil, Nat.zero_add] at hflags
  rw [readTerminal, hflags]
  simp only [okOr, bind, Except.bind, toNat_and_ne_zero]
  by_cases hre : entry.flags &&& EXPORT_SYMBOL_FLAGS_REEXPORT ≠ 0
  · rw [if_pos hre, haddress]
    have hdrop : (terminalBytes entry).drop ((pushUleb entry.flags.toNat).length +
        (pushUleb entry.address.toNat).length) = [] ++ 0 :: [] := by
      rw [terminalBytes, if_pos hre, ← List.length_append, List.drop_left]
      rfl
    simp only [hdrop, cstr_append List.not_mem_nil]
    rw [exportOf, if_pos hre]
    rfl
  · rw [if_neg hre, haddress]
    simp only [hstub]
    rw [if_neg (by simp), exportOf, if_neg hre]
    rfl

/-! ### Edges -/

/-- A pending child stands for an edge. -/
def StandsFor (data : List UInt8) (g : ℕ → ℕ) (parent : ℕ) (edge : List UInt8 × ℕ)
    (p : Pending) : Prop :=
  p.node = g edge.2 ∧ p.parent = parent ∧ slice data p.labelStart p.labelEnd = edge.1

theorem slice_append {before label after : List UInt8} :
    slice (before ++ (label ++ after)) before.length (before.length + label.length) = label := by
  rw [slice, if_pos ⟨by omega, by simp only [List.length_append]; omega⟩, List.drop_left,
    Nat.add_sub_cancel_left, List.take_left]

/-- **The reader gives the edges of a node back.** -/
theorem readChildren_edgeBytes {data after : List UInt8} {g : ℕ → ℕ} {parent : ℕ}
    (hsmall : data.length < 2 ^ 64) (edges : List (List UInt8 × ℕ)) :
    ∀ (before : List UInt8), data = before ++ (edgeBytes g edges ++ after) →
      (∀ edge ∈ edges, 0 ∉ edge.1 ∧ g edge.2 < data.length ∧
        parent + edge.1.length ≤ data.length) →
      ∃ children, readChildren data parent edges.length before.length = .ok children ∧
        List.Forall₂ (StandsFor data g parent) edges children := by
  induction edges with
  | nil => exact fun before _ _ => ⟨[], rfl, List.Forall₂.nil⟩
  | cons edge edges ih =>
    intro before hdata hedges
    obtain ⟨hnul, hchild, hname⟩ := hedges edge List.mem_cons_self
    have hlabel : data = before ++ (edge.1 ++ 0 :: (pushUleb (g edge.2) ++
        (edgeBytes g edges ++ after))) := by
      rw [hdata, edgeBytes, List.flatMap_cons, ← edgeBytes]
      simp only [List.append_assoc, List.cons_append]
    have hoffset : data = (before ++ edge.1 ++ [0]) ++ (pushUleb (g edge.2) ++
        (edgeBytes g edges ++ after)) := by
      rw [hlabel]
      simp only [List.append_assoc, List.singleton_append]
    have hnext : data = (before ++ edge.1 ++ [0] ++ pushUleb (g edge.2)) ++
        (edgeBytes g edges ++ after) := by
      rw [hoffset]
      simp only [List.append_assoc]
    have hlen : (before ++ edge.1 ++ [0]).length = before.length + edge.1.length + 1 := by
      simp only [List.length_append, List.length_singleton]
    have hread := readUleb_pushUleb hoffset hlen (hchild.trans hsmall)
    obtain ⟨children, hrest, hforall⟩ := ih _ hnext
      fun e he => hedges e (List.mem_cons_of_mem _ he)
    rw [List.length_append, hlen] at hrest
    refine ⟨⟨g edge.2, parent, before.length, before.length + edge.1.length⟩ :: children, ?_,
      List.Forall₂.cons ⟨rfl, rfl, ?_⟩ hforall⟩
    · have hcstr : cstr (data.drop before.length) = some edge.1 := by
        rw [hlabel, List.drop_left, cstr_append hnul]
      rw [List.length_cons, readChildren, hcstr]
      simp only [okOr, bind, Except.bind, hread, hrest]
      rw [if_neg (not_le.mpr hchild), if_neg (not_lt.mpr hname)]
      rfl
    · rw [hlabel]
      exact slice_append

/-! ### Nodes -/

/-- The nodes stand in the bytes at their offsets. -/
structure Laid (nodes : List Node) (g : ℕ → ℕ) (data : List UInt8) : Prop where
  children : ChildrenWithin nodes 0 nodes.length
  offset : ∀ k < nodes.length, g k = (bytesBefore nodes g k).length
  bytes : bytesBefore nodes g nodes.length <+: data
  small : data.length < 2 ^ 64

section Reading

variable {nodes : List Node} {g : ℕ → ℕ} {data : List UInt8}

variable {k : ℕ}

variable {node : Node}

theorem Laid.split (h : Laid nodes g data) (hk : k < nodes.length) (hnode : nodes[k]? = some node) :
    ∃ after, data = bytesBefore nodes g k ++ (bytesWith node g ++ after) := by
  obtain ⟨tail, htail⟩ := h.bytes
  obtain ⟨rest, hrest⟩ := @isPrefix_bytesBefore nodes g (k + 1) nodes.length hk
  refine ⟨rest ++ tail, ?_⟩
  rw [← htail, ← hrest, bytesBefore_succ, bytesAt, hnode]
  simp only [Option.map_some, Option.getD_some, List.append_assoc]

theorem bytesWith_length_ge (node : Node) (g : ℕ → ℕ) :
    2 ≤ (bytesWith node g).length ∧
      ∀ edge ∈ node.edges, edge.1.length ≤ (bytesWith node g).length := by
  have hterminal : 1 ≤ (terminalField node.terminal).length := by
    cases node.terminal with
    | none => exact le_rfl
    | some info =>
      rw [terminalField, List.length_append, length_pushUleb]
      have := ulebSize_pos info.length
      omega
  rw [bytesWith, List.length_append, List.length_cons]
  refine ⟨by omega, fun edge hedge => ?_⟩
  have hle : edge.1.length ≤ (edgeBytes g node.edges).length := by
    rw [edgeBytes, List.length_flatMap]
    refine le_trans ?_ (List.le_sum_of_mem (List.mem_map_of_mem hedge))
    rw [List.length_append]
    omega
  omega

theorem Laid.offset_lt (h : Laid nodes g data) (hk : k < nodes.length) :
    g k < data.length ∧ g k + 2 ≤ (bytesBefore nodes g (k + 1)).length := by
  obtain ⟨node, hnode, -⟩ := h.children k (Nat.zero_le k) hk
  have hsize := (bytesWith_length_ge node g).1
  obtain ⟨after, hdata⟩ := h.split hk hnode
  rw [h.offset k hk, bytesBefore_succ, bytesAt, hnode]
  have hlen := congrArg List.length hdata
  simp only [List.length_append, Option.map_some, Option.getD_some] at hlen ⊢
  omega

theorem read_terminalField {before after : List UInt8} {terminal : Option (List UInt8)}
    (hdata : data = before ++ (terminalField terminal ++ after)) (hsmall : data.length < 2 ^ 64) :
    ∃ size pos, readUleb data before.length = (some size, pos) ∧
      pos + size = (before ++ terminalField terminal).length ∧
      ((terminal = none ∧ size = 0) ∨
        ∃ info, terminal = some info ∧ size = info.length ∧ slice data pos (pos + size) = info) := by
  cases terminal with
  | none =>
    have hzero : terminalField none = pushUleb 0 := (pushUleb_small (by decide)).symm
    rw [hzero] at hdata ⊢
    refine ⟨0, _, readUleb_pushUleb hdata rfl (by decide), ?_, .inl ⟨rfl, rfl⟩⟩
    rw [List.length_append, Nat.add_zero]
  | some info =>
    rw [terminalField, List.append_assoc] at hdata
    have hlen := congrArg List.length hdata
    simp only [List.length_append] at hlen
    refine ⟨info.length, _, readUleb_pushUleb hdata rfl (by omega), ?_,
      .inr ⟨info, rfl, rfl, ?_⟩⟩
    · simp only [terminalField, List.length_append, Nat.add_assoc]
    · have hinfo : data = (before ++ pushUleb info.length) ++ (info ++ after) := by
        rw [hdata, List.append_assoc]
      rw [hinfo, ← List.length_append]
      exact slice_append

variable {name w : List UInt8} {visited : List ℕ}

variable {p : Pending} {found : Option ExportEntry}

/-- **The reader at a node.**  `found` is the entry that ends there, if any. -/
theorem visit_node (h : Laid nodes g data) (hk : k < nodes.length) (hnode : nodes[k]? = some node)
    (hp : p.node = g k) (hvisited : g k ∉ visited)
    (hw : name.take p.parent ++ slice data p.labelStart p.labelEnd = w) (hlen : w.length ≤ g k)
    (hfound : (node.terminal = none ∧ found = none) ∨ ∃ e, node.terminal = some (terminalBytes e) ∧
      found = some e ∧ e.name = w ∧ e.flags &&& EXPORT_SYMBOL_FLAGS_STUB_AND_RESOLVER = 0) :
    ∃ children, (∀ stack, visit data p ⟨stack, name, visited⟩ =
        .ok (found.map exportOf, ⟨children ++ stack, w, g k :: visited⟩)) ∧
      List.Forall₂ (StandsFor data g w.length) node.edges children := by
  obtain ⟨hlt, -⟩ := h.offset_lt hk
  obtain ⟨node', hnode', hcount, hedges⟩ := h.children k (Nat.zero_le k) hk
  rw [hnode, Option.some.injEq] at hnode'
  subst hnode'
  obtain ⟨after, hdata⟩ := h.split hk hnode
  have hposition := h.offset k hk
  rw [bytesWith, List.append_assoc, List.cons_append] at hdata
  obtain ⟨size, pos, hread, hend, hterminal⟩ := read_terminalField hdata h.small
  generalize hbefore : bytesBefore nodes g k ++ terminalField node.terminal = before at hend
  have hdata' : data = before ++ (UInt8.ofNat (min node.edges.length 255) ::
      (edgeBytes g node.edges ++ after)) := by
    rw [hdata, ← hbefore, List.append_assoc]
  have hbyte : data[before.length]? = some (UInt8.ofNat node.edges.length) := by
    rw [hdata', List.getElem?_append_right le_rfl, Nat.sub_self, Nat.min_eq_left hcount]
    rfl
  have hbefore_lt : before.length < data.length := by
    rw [hdata', List.length_append, List.length_cons]
    omega
  have hchildren : data = (before ++ [UInt8.ofNat (min node.edges.length 255)]) ++
      (edgeBytes g node.edges ++ after) := by
    rw [hdata', List.append_assoc]
    rfl
  have hfits : ∀ edge ∈ node.edges, 0 ∉ edge.1 ∧ g edge.2 < data.length ∧
      w.length + edge.1.length ≤ data.length := by
    intro edge hedge
    obtain ⟨hnul, -, hbound⟩ := hedges edge hedge
    refine ⟨hnul, (h.offset_lt hbound).1, ?_⟩
    have hlabel := (bytesWith_length_ge node g).2 edge hedge
    obtain ⟨after', hsplit⟩ := h.split hk hnode
    have hlen' := congrArg List.length hsplit
    simp only [List.length_append] at hlen'
    omega
  obtain ⟨children, hread', hforall⟩ := readChildren_edgeBytes h.small node.edges _ hchildren hfits
  rw [List.length_append, List.length_singleton] at hread'
  refine ⟨children, fun stack => ?_, hforall⟩
  have htoNat : (UInt8.ofNat node.edges.length).toNat = node.edges.length := by
    rw [UInt8.toNat_ofNat']
    omega
  have hinfo : readExport data pos size w = .ok (found.map exportOf) := by
    rw [readExport]
    rcases hfound with ⟨hnone, rfl⟩ | ⟨e, hsome, rfl, rfl, hstub⟩
    · rcases hterminal with ⟨-, rfl⟩ | ⟨info, hinfo, -⟩
      · rfl
      · exact absurd (hnone.symm.trans hinfo) (by simp)
    · rcases hterminal with ⟨hnone, -⟩ | ⟨info, hinfo, hsize, hslice⟩
      · exact absurd (hsome.symm.trans hnone) (by simp)
      · rw [hsome, Option.some.injEq] at hinfo
        rw [hslice, ← hinfo, if_pos (by rw [hsize, ← hinfo]; exact (terminalBytes_length e).1.ne'),
          readTerminal_terminalBytes hstub]
        rfl
  rw [← hposition] at hread
  rw [visit]
  simp only [hp, hw, hread, okOr, bind, Except.bind]
  rw [if_neg (by omega), if_neg hvisited]
  rw [hinfo, hend, if_neg (not_le.mpr hbefore_lt)]
  simp only [hbyte, htoNat, hread']
  rfl

/-- From pending nodes on top of any stack, the reader finds entries in a number of steps and goes on
with the stack. -/
def Reads (data : List UInt8) (top : List Pending) (name : List UInt8) (visited : List ℕ)
    (steps : ℕ) (found : List ExportEntry) (name' : List UInt8) (visited' : List ℕ) : Prop :=
  ∀ stack fuel, exportsFrom data (fuel + steps) ⟨top ++ stack, name, visited⟩ =
    (exportsFrom data fuel ⟨stack, name', visited'⟩).map
      ((found.map fun e => .ok (exportOf e)) ++ ·)

theorem Reads.nil (name : List UInt8) (visited : List ℕ) :
    Reads data [] name visited 0 [] name visited := by
  intro stack fuel
  simp

variable {name' : List UInt8} {visited' : List ℕ} {steps : ℕ}

theorem Reads.append {top top' : List Pending} {name'' : List UInt8} {visited'' : List ℕ}
    {steps' : ℕ} {found found' : List ExportEntry}
    (h : Reads data top name visited steps found name' visited')
    (h' : Reads data top' name' visited' steps' found' name'' visited'') :
    Reads data (top ++ top') name visited (steps + steps') (found ++ found') name'' visited'' := by
  intro stack fuel
  rw [List.append_assoc, Nat.add_comm steps, ← Nat.add_assoc, h, h', Option.map_map]
  congr 1
  funext items
  simp only [Function.comp_apply, List.map_append, List.append_assoc]

theorem Reads.visit {children : List Pending} {marked : List ℕ} {rest : List ExportEntry}
    (hvisit : ∀ stack, Read.visit data p ⟨stack, name, visited⟩ =
      .ok (found.map exportOf, ⟨children ++ stack, w, marked⟩))
    (h : Reads data children w marked steps rest name' visited') :
    Reads data [p] name visited (steps + 1) (found.toList ++ rest) name' visited' := by
  intro stack fuel
  rw [← Nat.add_assoc, exportsFrom]
  simp only [List.singleton_append, hvisit]
  cases found with
  | none =>
    simp only [Option.map_none, Option.toList_none, List.nil_append]
    exact h stack fuel
  | some e =>
    simp only [Option.map_some, Option.toList_some, List.singleton_append, List.map_cons]
    rw [h stack fuel, Option.map_map]
    rfl

/-- What reading the nodes from `index` to `stop` takes and gives. -/
def ReadsNodes (nodes : List Node) (g : ℕ → ℕ) (data : List UInt8) (index : ℕ) (w : List UInt8)
    (group : List ExportEntry) (stop : ℕ) : Prop :=
  ∀ (p : Pending) (name : List UInt8) (visited : List ℕ), p.node = g index →
    p.parent ≤ name.length → name.take p.parent ++ slice data p.labelStart p.labelEnd = w →
    (∀ v ∈ visited, v < g index) →
    ∃ name' visited', p.parent ≤ name'.length ∧ name'.take p.parent = name.take p.parent ∧
      (∀ v ∈ visited', v < (bytesBefore nodes g stop).length) ∧
      Reads data [p] name visited (stop - index) group name' visited'

/-- The entries that the reader can give back. -/
def NoResolver (group : List ExportEntry) : Prop :=
  ∀ e ∈ group, e.flags &&& EXPORT_SYMBOL_FLAGS_STUB_AND_RESOLVER = 0

/-- Reading the children of a node whose name is `w`. -/
theorem reads_edges (h : Laid nodes g data) {depth : ℕ}
    (ih : ∀ (index : ℕ) (v : List UInt8) (group : List ExportEntry) (stop : ℕ),
      Spells nodes depth index v group stop → stop ≤ nodes.length → v.length ≤ g index →
      NoResolver group → ReadsNodes nodes g data index v group stop) (edges : List (List UInt8 × ℕ))
    :
    ∀ {rest : List ExportEntry} {start stop : ℕ} {children : List Pending} {name : List UInt8}
      {visited : List ℕ}, EdgesSpell (Spells nodes depth) w edges rest start stop →
      stop ≤ nodes.length → NoResolver rest →
      (∀ edge ∈ edges, w.length + edge.1.length ≤ (bytesBefore nodes g start).length) →
      List.Forall₂ (StandsFor data g w.length) edges children →
      w.length ≤ name.length → name.take w.length = w →
      (∀ v ∈ visited, v < (bytesBefore nodes g start).length) →
      ∃ name' visited', w.length ≤ name'.length ∧ name'.take w.length = w ∧
        (∀ v ∈ visited', v < (bytesBefore nodes g stop).length) ∧
        Reads data children name visited (stop - start) rest name' visited' := by
  induction edges with
  | nil =>
    intro rest start stop children name visited ⟨hrest, hstop⟩ _ _ _ hforall hlen hname hvisited
    cases hforall
    subst hrest hstop
    rw [Nat.sub_self]
    exact ⟨name, visited, hlen, hname, hvisited, Reads.nil name visited⟩
  | cons edge edges ihEdges =>
    intro rest start stop children name visited ⟨run, later, mid, hrest, hstart, _, hspell, hedges⟩
      hstop hclean hlabels hforall hlen hname hvisited
    cases hforall with
    | @cons _ p _ later' hstands hforall =>
      obtain ⟨hnode, hparent, hlabel⟩ := hstands
      have hlt := (Spells.children depth _ _ _ _ hspell).1
      have hle := (EdgesSpell.children (Spells.children depth) edges hedges).1
      have hmono := (@isPrefix_bytesBefore nodes g start mid (by omega)).length_le
      have hoffset : g edge.2 = (bytesBefore nodes g start).length := by
        rw [h.offset edge.2 (by omega), hstart]
      subst hrest
      have hread := ih _ _ _ _ hspell (by omega) (by
        rw [List.length_append, hoffset]
        exact hlabels edge List.mem_cons_self) fun e he => hclean e (List.mem_append_left _ he)
      obtain ⟨name', visited', hlen', hname', hvisited', hfirst⟩ := hread p name visited hnode
        (by omega) (by rw [hparent, hname, hlabel]) (by rwa [hoffset])
      rw [hparent] at hlen' hname'
      obtain ⟨name'', visited'', hlen'', hname'', hvisited'', hlater⟩ := ihEdges hedges hstop
        (fun e he => hclean e (List.mem_append_right _ he))
        (fun e he => (hlabels e (List.mem_cons_of_mem _ he)).trans hmono) hforall hlen'
        (hname'.trans hname) hvisited'
      refine ⟨name'', visited'', hlen'', hname'', hvisited'', ?_⟩
      have hsteps : stop - start = (mid - edge.2) + (stop - mid) := by omega
      rw [hsteps]
      exact hfirst.append hlater

/-- **The reader finds the entries that nodes spell.** -/
theorem reads_spells (h : Laid nodes g data) (depth : ℕ) :
    ∀ (index : ℕ) (w : List UInt8) (group : List ExportEntry) (stop : ℕ),
      Spells nodes depth index w group stop → stop ≤ nodes.length → w.length ≤ g index →
      NoResolver group → ReadsNodes nodes g data index w group stop := by
  induction depth with
  | zero => intro index w group stop hspell; exact absurd hspell id
  | succ depth ih =>
    intro index w group stop hspell hstop hlen hclean p name visited hp hparent hw hvisited
    have hlt := (Spells.children (depth + 1) _ _ _ _ hspell).1
    obtain ⟨node, rest, hnode, -, hterminal, hedges⟩ := hspell
    have hk : index < nodes.length := by omega
    -- The entry that ends at the node, and the others.
    obtain ⟨found, hgroup, hfound⟩ : ∃ found : Option ExportEntry, group = found.toList ++ rest ∧
        ((node.terminal = none ∧ found = none) ∨ ∃ e, node.terminal = some (terminalBytes e) ∧
          found = some e ∧ e.name = w ∧ e.flags &&& EXPORT_SYMBOL_FLAGS_STUB_AND_RESOLVER = 0) := by
      rcases hterminal with ⟨hnone, rfl⟩ | ⟨first, hsome, hname, rfl⟩
      · exact ⟨none, rfl, .inl ⟨hnone, rfl⟩⟩
      · exact ⟨some first, rfl, .inr ⟨first, hsome, rfl, hname, hclean first List.mem_cons_self⟩⟩
    obtain ⟨children, hvisit, hforall⟩ := visit_node h hk hnode hp
      (fun hmem => lt_irrefl _ (hvisited _ hmem)) hw hlen hfound
    have hnext := (h.offset_lt hk).2
    have hsize : (bytesBefore nodes g (index + 1)).length = g index + (bytesWith node g).length := by
      rw [bytesBefore_succ, List.length_append, ← h.offset index hk, bytesAt, hnode]
      rfl
    have hmarked : ∀ v ∈ g index :: visited, v < (bytesBefore nodes g (index + 1)).length := by
      intro v hv
      rcases List.mem_cons.mp hv with rfl | hv
      · omega
      · have := hvisited v hv
        omega
    obtain ⟨name', visited', hlen', hname', hvisited', hrest⟩ := reads_edges h ih node.edges hedges
      hstop (fun e he => hclean e (hgroup ▸ List.mem_append_right _ he))
      (fun edge hedge => by
        have := (bytesWith_length_ge node g).2 edge hedge
        omega)
      hforall le_rfl List.take_length hmarked
    have hshort : p.parent ≤ w.length := by
      rw [← hw, List.length_append, List.length_take]
      omega
    have hkeep : w.take p.parent = name.take p.parent := by
      rw [← hw, List.take_append_of_le_length (by rw [List.length_take]; omega), List.take_take,
        Nat.min_self]
    refine ⟨name', visited', by omega, ?_, hvisited', ?_⟩
    · rw [← hkeep, ← hname', List.take_take, Nat.min_eq_left hshort]
    · have hsteps : stop - index = stop - (index + 1) + 1 := by omega
      rw [hsteps, hgroup]
      exact Reads.visit hvisit hrest

end Reading

/-! ### The whole trie -/

/-- Entries with distinct names, none with a NUL, none with a resolver. -/
structure Exportable (entries : List ExportEntry) : Prop where
  distinct : (entries.map ExportEntry.name).Nodup
  nul : ∀ e ∈ entries, 0 ∉ e.name
  resolver : NoResolver entries

section Whole

variable {entries : List ExportEntry}

theorem dedupNames_of_sorted {l : List ExportEntry}
    (h : l.Pairwise fun a b => a.name < b.name) : dedupNames l = l := by
  fun_induction dedupNames l with
  | case1 a b l heq ih =>
    have hlt := (List.pairwise_cons.mp h).1 b List.mem_cons_self
    rw [heq] at hlt
    exact absurd hlt (List.lt_irrefl _)
  | case2 a b l hne ih => rw [ih (List.pairwise_cons.mp h).2]
  | case3 l _ => rfl

/-- **The entries by name.** -/
theorem sortEntries_spec (hdistinct : (entries.map ExportEntry.name).Nodup) :
    (sortEntries entries).Perm entries ∧
      (sortEntries entries).Pairwise fun a b => a.name < b.name := by
  have hperm := List.mergeSort_perm entries fun a b => decide (a.name ≤ b.name)
  have hsorted : (entries.mergeSort fun a b => decide (a.name ≤ b.name)).Pairwise
      fun a b => a.name < b.name := by
    have hle : (entries.mergeSort fun a b => decide (a.name ≤ b.name)).Pairwise
        fun a b => decide (a.name ≤ b.name) = true := List.pairwise_mergeSort
      (fun a b c hab hbc => by
        rw [decide_eq_true_eq] at hab hbc ⊢
        exact List.le_trans hab hbc)
      (fun a b => by
        rw [Bool.or_eq_true, decide_eq_true_eq, decide_eq_true_eq]
        exact List.le_total a.name b.name) entries
    have hne := List.pairwise_map.mp (((hperm.map ExportEntry.name).nodup_iff).mpr hdistinct)
    refine (hle.and hne).imp fun {a b} hab => ?_
    rw [decide_eq_true_eq] at hab
    by_contra hlt
    exact hab.2 (List.le_antisymm hab.1 (List.not_lt.mp hlt))
  rw [sortEntries, dedupNames_of_sorted hsorted]
  exact ⟨hperm, hsorted⟩

theorem sortEntries_perm (hdistinct : (entries.map ExportEntry.name).Nodup)
    {other : List ExportEntry} (hother : other.Perm entries) :
    sortEntries other = sortEntries entries := by
  obtain ⟨hperm, hsorted⟩ := sortEntries_spec hdistinct
  obtain ⟨hperm', hsorted'⟩ :=
    sortEntries_spec ((hother.map ExportEntry.name).nodup_iff.mpr hdistinct)
  refine List.Perm.eq_of_pairwise (fun a b _ _ hab hba => ?_) hsorted' hsorted
    ((hperm'.trans hother).trans hperm.symm)
  exact absurd (List.le_of_lt hba) (List.not_le.mpr hab)

theorem buildNodes_spells {sorted : List ExportEntry}
    (hsorted : sorted.Pairwise fun a b => a.name < b.name) (hnul : ∀ e ∈ sorted, 0 ∉ e.name)
    (hne : sorted ≠ []) :
    (∀ n ∈ buildNodes sorted, n.offset = 0) ∧
      ∃ depth, Spells (buildNodes sorted) depth 0 [] sorted (buildNodes sorted).length := by
  have hgroup : IsGroup [] sorted := ⟨hsorted, fun e _ => List.nil_prefix⟩
  have hshort : ∀ e ∈ sorted, 0 ∉ e.name ∧ e.name.length - ([] : List UInt8).length <
      (sorted.map fun e => e.name.length).foldr max 0 + 1 := by
    intro e he
    have hmax := List.le_max_of_le' 0
      (List.mem_map_of_mem (f := fun e : ExportEntry => e.name.length) he) le_rfl
    exact ⟨hnul e he, by simpa using Nat.lt_succ_of_le hmax⟩
  obtain ⟨arena, harena, hzero, hspells⟩ := buildNode_spells _ hgroup hshort hne []
  have hnodes : buildNodes sorted = arena := harena
  rw [hnodes]
  have := hspells [] [] rfl
  rw [List.nil_append, List.append_nil, List.length_nil, Nat.zero_add] at this
  exact ⟨hzero, _, this⟩

theorem two_mul_le_bytesBefore {nodes : List Node} {g : ℕ → ℕ} {k : ℕ} (hk : k ≤ nodes.length) :
    2 * k ≤ (bytesBefore nodes g k).length := by
  induction k with
  | zero => exact Nat.zero_le _
  | succ k ih =>
    have hnode := List.getElem?_eq_getElem (show k < nodes.length by omega)
    have hsize := (bytesWith_length_ge nodes[k] g).1
    have hprev := ih (by omega)
    rw [bytesBefore_succ, List.length_append, bytesAt, hnode]
    simp only [Option.map_some, Option.getD_some]
    omega

theorem exports_spells {nodes : List Node} {g : ℕ → ℕ} {data : List UInt8} (h : Laid nodes g data)
    {depth : ℕ} {group : List ExportEntry} (hspell : Spells nodes depth 0 [] group nodes.length)
    (hclean : NoResolver group) {fuel : ℕ} (hfuel : data.length < fuel) :
    exports fuel data = some (group.map fun e => .ok (exportOf e)) := by
  have hpos := (Spells.children depth _ _ _ _ hspell).1
  have hcount := @two_mul_le_bytesBefore nodes g nodes.length le_rfl
  have hlen := h.bytes.length_le
  obtain ⟨name', visited', -, -, -, hreads⟩ := reads_spells h depth 0 [] group nodes.length hspell
    le_rfl (Nat.zero_le _) hclean ⟨0, 0, 0, 0⟩ [] [] (h.offset 0 hpos).symm le_rfl rfl (by simp)
  have hdata : data.isEmpty = false := by
    cases data with
    | nil =>
      rw [List.length_nil] at hlen
      omega
    | cons _ _ => rfl
  obtain ⟨rest, rfl⟩ : ∃ rest, fuel = rest + 1 + (nodes.length - 0) :=
    ⟨fuel - nodes.length - 1, by omega⟩
  rw [exports, hdata]
  have := hreads [] (rest + 1)
  rw [List.append_nil] at this
  simp only [Bool.false_eq_true, if_false, this]
  rw [exportsFrom]
  simp

/-- The reader on zeros: nothing is exported, unless there is a single one. -/
theorem exports_zeros {pad fuel : ℕ} (hpad : pad ≠ 1) (hsmall : pad < 2 ^ 63) (hfuel : pad < fuel) :
    exports fuel (List.replicate pad 0) = some [] := by
  by_cases hzero : pad = 0
  · subst hzero
    obtain ⟨rest, rfl⟩ : ∃ rest, fuel = rest + 1 := ⟨fuel - 1, by omega⟩
    rfl
  · -- Two zeros are a node without an entry and without edges.
    have hlaid : Laid [({} : Node)] (fun _ => 0) (List.replicate pad 0) := by
      refine ⟨fun i _ hi => ⟨{}, ?_, by decide, by simp⟩, fun k hk => ?_, ?_, ?_⟩
      · rw [List.length_singleton, Nat.lt_one_iff] at hi
        rw [hi]
        rfl
      · rw [List.length_singleton, Nat.lt_one_iff] at hk
        rw [hk]
        rfl
      · obtain ⟨rest, rfl⟩ : ∃ rest, pad = 2 + rest := ⟨pad - 2, by omega⟩
        rw [List.replicate_add]
        exact List.prefix_append _ _
      · rw [List.length_replicate]
        omega
    have hspell : Spells [({} : Node)] 1 0 [] [] 1 :=
      ⟨{}, [], rfl, by decide, .inl ⟨rfl, rfl⟩, rfl, rfl⟩
    exact exports_spells hlaid hspell (by simp [NoResolver]) (by rwa [List.length_replicate])

/-- **The trie of the entries, and its reader (proved).**  The loop ends; the reader, also with
zeros after the trie, finds exactly the entries, by name, and their order does not matter. -/
theorem build_roundTrip (h : Exportable entries) :
    ∃ passes, ∀ fuel, passes < fuel → ∃ (trie : List UInt8) (sorted : List ExportEntry),
      build fuel entries = some trie ∧ sorted.Perm entries ∧ (sorted.Pairwise fun a b => a.name < b.name) ∧
      (∀ pad, trie.length + pad < 2 ^ 63 → (entries = [] → pad ≠ 1) →
        ∀ steps, trie.length + pad < steps →
          exports steps (trie ++ List.replicate pad 0) =
            some (sorted.map fun e => .ok (exportOf e))) ∧
      ∀ other : List ExportEntry, other.Perm entries → build fuel other = some trie := by
  obtain ⟨hperm, hsorted⟩ := sortEntries_spec h.distinct
  by_cases hempty : entries = []
  · subst hempty
    refine ⟨0, fun fuel _ => ⟨[], [], rfl, List.Perm.refl _, List.Pairwise.nil,
      fun pad hsmall hpad steps hsteps => ?_, fun other hother => ?_⟩⟩
    · rw [List.length_nil, Nat.zero_add] at hsmall hsteps
      exact exports_zeros (hpad rfl) hsmall hsteps
    · rw [hother.eq_nil]
      rfl
  · have hne : sortEntries entries ≠ [] := fun hnil => hempty (hnil ▸ hperm).symm.eq_nil
    obtain ⟨hzero, depth, hspells⟩ := buildNodes_spells hsorted
      (fun e he => h.nul e (hperm.mem_iff.mp he)) hne
    generalize hnodes : buildNodes (sortEntries entries) = nodes at hzero hspells
    have hchildren := (Spells.children depth _ _ _ _ hspells).2
    have hstart : nodes = withOffsets nodes fun _ => 0 := by
      refine List.ext_getElem? fun i => ?_
      rw [getElem?_withOffsets]
      cases hi : nodes[i]? with
      | none => rfl
      | some n => rw [Option.map_some, ← hzero n (List.mem_of_getElem? hi)]
    have hbuild : ∀ fuel other, other.Perm entries → build fuel other =
        (offsetLoop fuel nodes).map fun ns => (List.range ns.length).flatMap (writeNode ns) := by
      intro fuel other hother
      rw [build, if_neg, sortEntries_perm h.distinct hother, hnodes]
      rw [List.isEmpty_iff]
      exact fun hnil => hempty (hnil ▸ hother).symm.eq_nil
    refine ⟨∑ i ∈ Finset.range nodes.length, (U64_MAX - 0), fun fuel hfuel => ?_⟩
    obtain ⟨g, hloop, hstable⟩ := offsetLoop_ends hchildren fuel (fun _ => 0)
      (fun i _ => Nat.zero_le _) hfuel
    rw [← hstart] at hloop
    have htrie : ∀ other : List ExportEntry, other.Perm entries →
        build fuel other = some (bytesBefore nodes g nodes.length) := by
      intro other hother
      rw [hbuild fuel other hother, hloop, Option.map_some, flatMap_writeNode hchildren]
    refine ⟨_, sortEntries entries, htrie entries (List.Perm.refl _), hperm, hsorted,
      fun pad hsmall _ steps hsteps => ?_, htrie⟩
    have hlaid : Laid nodes g (bytesBefore nodes g nodes.length ++ List.replicate pad 0) := by
      refine ⟨hchildren, fun k hk => position_of_stable hstable (by omega) hk,
        List.prefix_append _ _, ?_⟩
      rw [List.length_append, List.length_replicate]
      omega
    refine exports_spells hlaid hspells (fun e he => h.resolver e (hperm.mem_iff.mp he)) ?_
    rwa [List.length_append, List.length_replicate]

/-- One byte of padding after an empty trie is read as a node that is cut short. -/
theorem not_roundTrip_of_one_zero :
    ¬ ∀ entries : List ExportEntry, Exportable entries → ∀ fuel trie,
      build fuel entries = some trie → ∀ pad steps, trie.length + pad < steps →
        exports steps (trie ++ List.replicate pad 0) =
          some ((sortEntries entries).map fun e => .ok (exportOf e)) := by
  intro hall
  have hone := hall [] ⟨by decide, by simp, by simp [NoResolver]⟩ 1 [] rfl 1 2 (by decide)
  have hnil : sortEntries [] = [] := (sortEntries_spec (by decide)).1.eq_nil
  rw [hnil] at hone
  exact absurd hone (by decide)

/-- Two entries, one of them re-exported, whose names share their first byte. -/
theorem build_roundTrip_shared :
    ∃ passes, ∀ fuel, passes < fuel → ∃ (trie : List UInt8) (sorted : List ExportEntry),
      build fuel [⟨[95, 98], 8, 2⟩, ⟨[95, 97], 0, 4096⟩] = some trie ∧
      sorted.Perm [⟨[95, 98], 8, 2⟩, ⟨[95, 97], 0, 4096⟩] ∧
      (sorted.Pairwise fun a b => a.name < b.name) ∧
      (∀ pad, trie.length + pad < 2 ^ 63 → ∀ steps, trie.length + pad < steps →
          exports steps (trie ++ List.replicate pad 0) =
            some (sorted.map fun e => .ok (exportOf e))) := by
  obtain ⟨passes, h⟩ := @build_roundTrip [⟨[95, 98], 8, 2⟩, ⟨[95, 97], 0, 4096⟩]
    ⟨by decide, by decide, by unfold NoResolver; decide⟩
  refine ⟨passes, fun fuel hfuel => ?_⟩
  obtain ⟨trie, sorted, hbuild, hperm, hsorted, hread, -⟩ := h fuel hfuel
  exact ⟨trie, sorted, hbuild, hperm, hsorted,
    fun pad hsmall => hread pad hsmall fun hnil => absurd hnil (by simp)⟩

end Whole

end Qld.Macho
