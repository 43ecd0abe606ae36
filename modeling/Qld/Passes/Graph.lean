import Qld.Lib.BreadthFirst
import Qld.Passes.Csr

/-!
# The section reachability graph

The model of `passes/graph.rs`: the sections point to sections, and some of them are roots.  That
targets and roots are in range is part of the type, as `SectionGraph::new` checks it.

* `SectionGraph.new`, `SectionGraph.edges` — the graph;
* `GraphBuilder` — a graph from single edges;
* `SectionGraph.Reachable`, `SectionGraph.Chain` — the sections that some root leads to, and the
  chains of references that do.
-/

namespace Qld.Passes

open Qld.Lib

/-- A section graph: per-section outgoing edges and a root set. -/
structure SectionGraph where
  edgeTable : Csr ℕ
  roots : List ℕ
  targets_lt : ∀ target ∈ edgeTable.values, target < edgeTable.rows
  roots_lt : ∀ root ∈ roots, root < edgeTable.rows

namespace SectionGraph

/-- Wraps an edge table (row `i` has the edges out of section `i`) and roots. -/
def new (edges : Csr ℕ) (roots : List ℕ) : Except InputError SectionGraph :=
  let len := edges.rows
  match htargets : edges.values.find? fun id => id ≥ len with
  | some bad => .error (.outOfRange "edge target section" bad len)
  | none =>
    match hroots : roots.find? fun id => id ≥ len with
    | some bad => .error (.outOfRange "root section" bad len)
    | none => .ok {
        edgeTable := edges
        roots := roots
        targets_lt := fun t ht => by simpa using List.find?_eq_none.mp htargets t ht
        roots_lt := fun t ht => by simpa using List.find?_eq_none.mp hroots t ht }

/-- Number of sections. -/
def numSections (graph : SectionGraph) : ℕ := graph.edgeTable.rows

/-- The sections that a section points to; none if it is out of range. -/
def edges (graph : SectionGraph) (s : ℕ) : List ℕ := graph.edgeTable.row s

theorem lt_of_mem_edges (graph : SectionGraph) {a b : ℕ} (h : b ∈ graph.edges a) :
    b < graph.numSections := graph.targets_lt b (graph.edgeTable.mem_values_of_mem_row h)

theorem new_eq_ok {edges : Csr ℕ} {roots : List ℕ} {graph : SectionGraph}
    (h : new edges roots = .ok graph) : graph.edgeTable = edges ∧ graph.roots = roots := by
  unfold new at h
  dsimp only at h
  split at h
  · exact nomatch h
  · split at h
    · exact nomatch h
    · obtain rfl := Except.ok.inj h
      exact ⟨rfl, rfl⟩

theorem exists_new_eq_ok (edges : Csr ℕ) (roots : List ℕ)
    (htargets : ∀ t ∈ edges.values, t < edges.rows) (hroots : ∀ t ∈ roots, t < edges.rows) :
    ∃ graph, new edges roots = .ok graph := by
  have hfind : edges.values.find? (fun id => decide (id ≥ edges.rows)) = none :=
    List.find?_eq_none.mpr fun t ht => by simpa using htargets t ht
  have hfind' : roots.find? (fun id => decide (id ≥ edges.rows)) = none :=
    List.find?_eq_none.mpr fun t ht => by simpa using hroots t ht
  unfold new
  dsimp only
  split
  · next hsome => exact nomatch hfind.symm.trans hsome
  · split
    · next hsome => exact nomatch hfind'.symm.trans hsome
    · exact ⟨_, rfl⟩

/-! ### Reachability -/

/-- Some root leads to the section. -/
def Reachable (graph : SectionGraph) : ℕ → Prop := Reached graph.edges graph.roots

/-- A chain of references from a root to a section. -/
def Chain (graph : SectionGraph) : List ℕ → ℕ → Prop := IsPath graph.edges graph.roots

end SectionGraph

/-! ### The builder -/

/-- Builds a graph one edge at a time. -/
structure GraphBuilder where
  edges : CsrBuilder ℕ
  roots : List ℕ

namespace GraphBuilder

/-- A builder for a graph of `sections` sections. -/
def new (sections : ℕ) : GraphBuilder := ⟨⟨sections, []⟩, []⟩

/-- Adds an edge: if `from` is live, so is `to`. -/
def addEdge (b : GraphBuilder) (source target : ℕ) : GraphBuilder :=
  { b with edges := { b.edges with pairs := b.edges.pairs ++ [(source, target)] } }

/-- Marks a section as a root. -/
def addRoot (b : GraphBuilder) (s : ℕ) : GraphBuilder := { b with roots := b.roots ++ [s] }

/-- Makes the members live together: a cycle of edges. -/
def keepTogether (b : GraphBuilder) (members : List ℕ) : GraphBuilder :=
  match members with
  | [] | [_] => b
  | first :: rest =>
    let b := (members.zip rest).foldl (fun b pair => b.addEdge pair.1 pair.2) b
    match members.getLast? with
    | some last => b.addEdge last first
    | none => b

/-- Builds the graph. -/
def build (b : GraphBuilder) : Except InputError SectionGraph := do
  if b.edges.rows ≥ 2 ^ 32 then throw (.tooLarge "section count")
  SectionGraph.new (← b.edges.build) b.roots

end GraphBuilder

end Qld.Passes
