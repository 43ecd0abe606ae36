import Qld.Lib.SortedGroups
import Qld.Macho.Buf

/-!
# Building the export trie

The model of `macho/trie.rs`: a radix tree over the sorted names, its nodes numbered in depth-first
order, then node offsets recomputed until the sizes of the child offsets stop changing.

* `ExportEntry`, `Node` — the data; a node's offset is that of the last pass;
* `buildNode` — fills a node from a group of names; its fuel bounds the depth;
* `offsetPass`, `offsetLoop` — one pass over the offsets, and the loop; its fuel bounds the passes;
* `writeNode`, `build` — the bytes of a node, and of the trie.
-/

namespace Qld.Macho

open Qld.Lib

def EXPORT_SYMBOL_FLAGS_REEXPORT : UInt64 := 0x08
def EXPORT_SYMBOL_FLAGS_STUB_AND_RESOLVER : UInt64 := 0x10

/-- One exported symbol. -/
structure ExportEntry where
  name : List UInt8
  flags : UInt64
  /-- Address relative to the image base (for re-exports: the ordinal). -/
  address : UInt64
  deriving DecidableEq, Repr

structure Node where
  terminal : Option (List UInt8) := none
  /-- Labels and child indices. -/
  edges : List (List UInt8 × ℕ) := []
  offset : ℕ := 0
  deriving DecidableEq, Repr

def terminalBytes (entry : ExportEntry) : List UInt8 :=
  pushUleb entry.flags.toNat ++ pushUleb entry.address.toNat ++
    if entry.flags &&& EXPORT_SYMBOL_FLAGS_REEXPORT ≠ 0 then [0] else []

/-! ### The radix tree -/

/-- The end of the bytes that two names share, from `common` on. -/
def commonEnd (first last : List UInt8) (common : ℕ) : ℕ :=
  if common < first.length ∧ common < last.length ∧ first[common]? = last[common]? then
    commonEnd first last (common + 1)
  else common
termination_by first.length - common

/-- `name.get(start..stop)`, or nothing. -/
def slice (name : List UInt8) (start stop : ℕ) : List UInt8 :=
  if start ≤ stop ∧ stop ≤ name.length then (name.drop start).take (stop - start) else []

/-- The entry of a group that ends at the node, and the others. -/
def takeTerminal (group : List ExportEntry) (shared : ℕ) :
    Option ExportEntry × List ExportEntry :=
  match group with
  | [] => (none, [])
  | first :: rest => if first.name.length = shared then (some first, rest) else (none, group)

/-- Consecutive entries with one byte after the `shared` ones. -/
def runsOf (shared : ℕ) (rest : List ExportEntry) : List (List ExportEntry) :=
  rest.splitBy fun a b => a.name[shared]? == b.name[shared]?

/-- The label of a run: what its first and last names share. -/
def runEnd (shared : ℕ) (run : List ExportEntry) : ℕ :=
  match run with
  | [] => shared + 1
  | head :: _ =>
    commonEnd head.name ((run.getLast?.map ExportEntry.name).getD head.name) (shared + 1)

def runLabel (shared : ℕ) (run : List ExportEntry) : List UInt8 :=
  match run with
  | [] => []
  | head :: _ => slice head.name shared (runEnd shared run)

/-- Fills node `index` from `group`, whose names share their first `shared` bytes.  Children are
pushed in depth-first order. -/
def buildNode : ℕ → List ExportEntry → ℕ → ℕ → List Node → List Node
  | 0, _, _, _, nodes => nodes
  | fuel + 1, group, shared, index, nodes =>
    let (terminal, rest) := takeTerminal group shared
    let nodes := match terminal with
      | some first => nodes.modify index fun n => { n with terminal := some (terminalBytes first) }
      | none => nodes
    (runsOf shared rest).foldl (fun nodes run =>
      let child := nodes.length
      let nodes := (nodes ++ [({} : Node)]).modify index fun n =>
        { n with edges := n.edges ++ [(runLabel shared run, child)] }
      buildNode fuel run (runEnd shared run) child nodes) nodes

/-! ### Offsets -/

/-- The size of a node, with the offsets of its children. -/
def sizeWith (node : Node) (offset : ℕ → ℕ) : ℕ :=
  let size := match node.terminal with
    | some info => saturatingAdd (ulebSize info.length) info.length
    | none => 1
  node.edges.foldl (fun size edge =>
    saturatingAdd (saturatingAdd (saturatingAdd size edge.1.length) 1) (ulebSize (offset edge.2)))
    (saturatingAdd size 1)

/-- The offset of a node. -/
def offsetOf (nodes : List Node) (index : ℕ) : ℕ := (nodes[index]?.map Node.offset).getD 0

def nodeSize (nodes : List Node) (index : ℕ) : ℕ :=
  match nodes[index]? with
  | none => 0
  | some node => sizeWith node (offsetOf nodes)

/-- Sets the offset of one node; the state also holds the next offset, and whether one changed. -/
def offsetStep (s : List Node × ℕ × Bool) (index : ℕ) : List Node × ℕ × Bool :=
  let size := nodeSize s.1 index
  if offsetOf s.1 index ≠ s.2.1 then
    (s.1.modify index fun n => { n with offset := s.2.1 }, saturatingAdd s.2.1 size, true)
  else (s.1, saturatingAdd s.2.1 size, s.2.2)

def offsetPass (nodes : List Node) : List Node × ℕ × Bool :=
  (List.range nodes.length).foldl offsetStep (nodes, 0, false)

/-- Passes until no offset changes; `none` if the fuel does not suffice. -/
def offsetLoop : ℕ → List Node → Option (List Node)
  | 0, _ => none
  | fuel + 1, nodes =>
    let pass := offsetPass nodes
    if pass.2.2 then offsetLoop fuel pass.1 else some pass.1

/-! ### The bytes -/

/-- The bytes of the edges of a node. -/
def edgeBytes (offset : ℕ → ℕ) (edges : List (List UInt8 × ℕ)) : List UInt8 :=
  edges.flatMap fun edge => edge.1 ++ 0 :: pushUleb (offset edge.2)

/-- The terminal size, and the terminal information. -/
def terminalField : Option (List UInt8) → List UInt8
  | some info => pushUleb info.length ++ info
  | none => [0]

/-- The bytes of a node, with the offsets of its children. -/
def bytesWith (node : Node) (offset : ℕ → ℕ) : List UInt8 :=
  terminalField node.terminal ++
    UInt8.ofNat (min node.edges.length 255) :: edgeBytes offset node.edges

def writeNode (nodes : List Node) (index : ℕ) : List UInt8 :=
  match nodes[index]? with
  | none => []
  | some node => bytesWith node (offsetOf nodes)

/-- `dedup_by` name: drops entries after one of the same name. -/
def dedupNames : List ExportEntry → List ExportEntry
  | a :: b :: l => if a.name = b.name then dedupNames (a :: l) else a :: dedupNames (b :: l)
  | l => l

/-- The entries by name, each name once. -/
def sortEntries (entries : List ExportEntry) : List ExportEntry :=
  dedupNames (entries.mergeSort fun a b => decide (a.name ≤ b.name))

/-- The nodes of the trie, before they have offsets. -/
def buildNodes (sorted : List ExportEntry) : List Node :=
  buildNode ((sorted.map fun e => e.name.length).foldr max 0 + 1) sorted 0 0 [({} : Node)]

/-- Builds the trie for `entries`; `none` if the fuel does not suffice for the offsets. -/
def build (fuel : ℕ) (entries : List ExportEntry) : Option (List UInt8) :=
  if entries.isEmpty then some []
  else (offsetLoop fuel (buildNodes (sortEntries entries))).map fun nodes =>
    (List.range nodes.length).flatMap (writeNode nodes)

end Qld.Macho
