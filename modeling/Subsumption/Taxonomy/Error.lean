import Subsumption.Atom
/-!
What can go wrong with a taxonomy.
-/

namespace Subsumption

/-- Why a taxonomy cannot be read or revised as asked. -/
inductive TaxonomyError where
  /-- The atom is not an element. -/
  | notFound (atom : Atom)
  /-- Both ends of the edge are elements, but there is no such edge. -/
  | edgeNotFound (parent child : Atom)
  /-- The edge would close a cycle, and cycles are rejected. -/
  | cycle (parent child : Atom)
  /-- The edge is recorded at one of its ends only. -/
  | oneSidedEdge (parent child : Atom)
deriving DecidableEq, Repr

namespace TaxonomyError

/-- An element or an edge is missing. -/
def isNotFound : TaxonomyError → Bool
  | notFound _ => true
  | edgeNotFound _ _ => true
  | _ => false

def message : TaxonomyError → String
  | notFound a => "'" ++ a.name ++ "' is not an element"
  | edgeNotFound parent child =>
    "'" ++ child.name ++ "' is not a child of '" ++ parent.name ++ "'"
  | cycle parent child =>
    "'" ++ child.name ++ "' as a child of '" ++ parent.name ++ "' would introduce a cycle"
  | oneSidedEdge parent child =>
    "the edge from '" ++ child.name ++ "' to '" ++ parent.name ++ "' is noted at one end only"

def kind : TaxonomyError → String
  | notFound _ => "NotFound"
  | edgeNotFound _ _ => "EdgeNotFound"
  | cycle _ _ => "Cycle"
  | oneSidedEdge _ _ => "OneSidedEdge"

def debugText (e : TaxonomyError) : String :=
  let ends (parent child : Atom) :=
    " \x7b parent: " ++ parent.name ++ ", child: " ++ child.name ++ " \x7d"
  match e with
  | notFound a => e.kind ++ "(" ++ a.name ++ ")"
  | edgeNotFound parent child => e.kind ++ ends parent child
  | cycle parent child => e.kind ++ ends parent child
  | oneSidedEdge parent child => e.kind ++ ends parent child

end TaxonomyError

end Subsumption
