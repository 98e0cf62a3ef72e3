import Subsumption.Taxonomy.Basic
/-!
A taxonomy as a directed graph.

The nodes are the elements in order, an edge runs from the index of a child to
the index of each of its parents, and the graph can be written in the dot
language.
-/

namespace Subsumption

/-- A directed graph with labelled nodes, whose edges are pairs of indices. -/
structure Diagram where
  nodes : List Atom
  edges : List (Nat × Nat)
deriving DecidableEq, Repr

namespace Diagram

/-- The edges whose head is the tail of some edge. -/
def continued (edges : List (Nat × Nat)) : List (Nat × Nat) :=
  edges.filter fun edge => edges.any fun next => next.1 == edge.2

/-- Strikes edges that cannot be continued until none is left to strike.  An
edge stays when a path of any length begins with it, so on a finite graph
nothing stays unless there is a cycle. -/
def core (edges : List (Nat × Nat)) : List (Nat × Nat) :=
  if (continued edges).length < edges.length then core (continued edges) else edges
termination_by edges.length

/-- No path along the edges returns to its start. -/
def isAcyclic (d : Diagram) : Bool := (core d.edges).isEmpty

def labelChar : Char → List Char
  | '"' => ['\\', '"']
  | '\\' => ['\\', '\\']
  | '\n' => ['\\', 'l']
  | c => [c]

def label (a : Atom) : String := String.ofList (a.name.toList.flatMap labelChar)

def nodeLine (index : Nat) (a : Atom) : String :=
  "    " ++ Nat.repr index ++ " [ label = \"" ++ label a ++ "\" ]\n"

def edgeLine (edge : Nat × Nat) : String :=
  "    " ++ Nat.repr edge.1 ++ " -> " ++ Nat.repr edge.2 ++ " [ ]\n"

/-- The graph in the dot language, a line for each node and then for each
edge. -/
def dot (d : Diagram) : String :=
  "digraph \x7b\n" ++
    String.join (d.nodes.zipIdx.map fun (a, index) => nodeLine index a) ++
    String.join (d.edges.map edgeLine) ++ "\x7d\n"

example : (Diagram.mk [⟨"p"⟩, ⟨"q"⟩] [(0, 1)]).isAcyclic = true := by decide +kernel

example : (Diagram.mk [⟨"p"⟩] [(0, 0)]).isAcyclic = false := by decide +kernel

end Diagram

namespace Taxonomy

/-- The taxonomy as a graph: its elements in order, and its edges in order of
child and then of parent. -/
def diagram (t : Taxonomy) : Diagram :=
  let nodes := t.elements.keys
  { nodes
    edges := t.elements.toList.flatMap fun (child, e) =>
      e.parents.toList.filterMap fun parent => do
        return (← nodes.idxOf? child, ← nodes.idxOf? parent) }

/-- No element can be reached from itself along the edges. -/
def isAcyclic (t : Taxonomy) : Bool := t.diagram.isAcyclic

def dot (t : Taxonomy) : String := t.diagram.dot

end Taxonomy

end Subsumption
