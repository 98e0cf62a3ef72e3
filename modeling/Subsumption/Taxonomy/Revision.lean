import Subsumption.Taxonomy.Reachability
/-!
Revisions of a taxonomy, as procedures that write to it step by step and keep what
they wrote when they fail.  A plural revision stops at the first failure.
-/

namespace Subsumption

/-- A change that may be asked of a taxonomy. -/
inductive Revision where
  | addElement (a : Atom)
  | addElements (atoms : List Atom)
  | removeElement (a : Atom)
  | removeElements (atoms : List Atom)
  | addChild (parent child : Atom)
  | addParent (child parent : Atom)
  | addChildren (parent : Atom) (children : List Atom)
  | addParents (child : Atom) (parents : List Atom)
  | removeChild (parent child : Atom)
  | removeParent (child parent : Atom)
  | removeChildren (parent : Atom) (children : List Atom)
  | removeParents (child : Atom) (parents : List Atom)
deriving DecidableEq, Repr

inductive Answer where
  /-- Whether the element is new. -/
  | added (isNew : Bool)
  /-- The element as it was before it was removed. -/
  | removed (element : Element)
  | done
deriving DecidableEq

namespace Element

def noteParent (a : Atom) (e : Element) : Element := { e with parents := e.parents.insert a }

def noteChild (a : Atom) (e : Element) : Element := { e with children := e.children.insert a }

def forgetParent (a : Atom) (e : Element) : Element := { e with parents := e.parents.erase a }

def forgetChild (a : Atom) (e : Element) : Element := { e with children := e.children.erase a }

end Element

/-- The elements with the records of some atoms changed.  An atom that is no
element is passed over. -/
def Elements.strike (forget : Element → Element) (elements : Elements) (atoms : AtomSet) :
    Elements :=
  atoms.toList.foldl (fun elements a => elements.modify a forget) elements

/-- The elements with `a`, which had the record `e`, struck from the records of
its neighbours.  When `a` was its own neighbour it is passed over. -/
def Elements.detach (elements : Elements) (a : Atom) (e : Element) : Elements :=
  let withoutParent := Elements.strike (Element.forgetParent a) elements e.children
  Elements.strike (Element.forgetChild a) withoutParent e.parents

/-- Steps that write to a taxonomy and may fail.  What is written before a failure
stays. -/
abbrev Procedure := EStateM TaxonomyError Taxonomy

namespace Taxonomy

/-- The taxonomy as a procedure leaves it, and the answer or the error. -/
def perform {α : Type} (t : Taxonomy) (procedure : Procedure α) :
    Taxonomy × Except TaxonomyError α :=
  match procedure.run t with
  | .ok answer t' => (t', .ok answer)
  | .error e t' => (t', .error e)

/-- The taxonomy that a procedure leaves when it succeeds. -/
def built {α : Type} (t : Taxonomy) (procedure : Procedure α) : Except TaxonomyError Taxonomy :=
  let (t', answer) := t.perform procedure
  answer.map fun _ => t'

/-- An edge from `child` to `parent` would close a cycle. -/
def closesCycle (t : Taxonomy) (parent child : Atom) : Except TaxonomyError Bool := do
  if parent = child then return true
  return (← t.ancestors parent).contains child

end Taxonomy

namespace Procedure

/-- An answer worked out from the taxonomy as it stands. -/
def ask {α : Type} (question : Taxonomy → Except TaxonomyError α) : Procedure α := do
  MonadExcept.ofExcept (question (← get))

/-- Changes the record of an element.  Returns the record as it was. -/
def amend (a : Atom) (change : Element → Element) : Procedure Element := do
  let e ← ask (·.element a)
  modify fun t => { t with elements := t.elements.modify a change }
  return e

/-- Adds an element without edges, unless the atom is an element already.  Returns
whether it was added. -/
def addElement (a : Atom) : Procedure Bool := do
  if a ∈ (← get) then return false
  modify fun t => { t with elements := t.elements.insert a {} }
  return true

/-- Removes an element together with every edge to or from it. -/
def removeElement (a : Atom) : Procedure Element := do
  let found := (← get).elements[a]?
  modify fun t => { t with elements := t.elements.erase a }
  match found with
  | none => throw (.notFound a)
  | some e =>
    modify fun t => { t with elements := t.elements.detach a e }
    return e

/-- Notes the edge from `child` to `parent` at both of its ends. -/
def noteEdge (parent child : Atom) : Procedure Unit := do
  let _ ← amend parent (Element.noteChild child)
  let _ ← amend child (Element.noteParent parent)

/-- Adds the edge from `child` to `parent`.  Adding an edge that is there
already changes nothing. -/
def addEdge (parent child : Atom) : Procedure Unit := do
  let _ ← ask (·.element parent)
  let _ ← ask (·.element child)
  if (← get).policy = .reject then
    if ← ask (·.closesCycle parent child) then throw (.cycle parent child)
  noteEdge parent child

/-- Removes the edge from `child` to `parent`.  Only the note at the parent tells
whether there is one. -/
def removeEdge (parent child : Atom) : Procedure Unit := do
  let _ ← ask (·.element child)
  let e ← amend parent (Element.forgetChild child)
  unless child ∈ e.children do throw (.edgeNotFound parent child)
  let _ ← amend child (Element.forgetParent parent)

/-- A step for each atom in turn, up to the first failure. -/
def forEach (atoms : List Atom) (step : Atom → Procedure Unit) : Procedure Answer := do
  forM atoms step
  return .done

end Procedure

def Revision.procedure : Revision → Procedure Answer
  | .addElement a => return .added (← Procedure.addElement a)
  | .addElements atoms => Procedure.forEach atoms fun a => do let _ ← Procedure.addElement a
  | .removeElement a => return .removed (← Procedure.removeElement a)
  | .removeElements atoms => Procedure.forEach atoms fun a => do let _ ← Procedure.removeElement a
  | .addChild parent child => do Procedure.addEdge parent child; return .done
  | .addParent child parent => do Procedure.addEdge parent child; return .done
  | .addChildren parent children => Procedure.forEach children (Procedure.addEdge parent)
  | .addParents child parents =>
    Procedure.forEach parents fun parent => Procedure.addEdge parent child
  | .removeChild parent child => do Procedure.removeEdge parent child; return .done
  | .removeParent child parent => do Procedure.removeEdge parent child; return .done
  | .removeChildren parent children => Procedure.forEach children (Procedure.removeEdge parent)
  | .removeParents child parents =>
    Procedure.forEach parents fun parent => Procedure.removeEdge parent child

namespace Taxonomy

/-- Revises the taxonomy, and reports what came of it. -/
def revise (t : Taxonomy) (revision : Revision) : Taxonomy × Except TaxonomyError Answer :=
  t.perform revision.procedure

/-- The taxonomy after a sequence of revisions, whatever came of each. -/
def run (t : Taxonomy) (revisions : List Revision) : Taxonomy :=
  revisions.foldl (fun t r => (t.revise r).1) t

example : ((∅ : Taxonomy).run [.addElements [⟨"p"⟩, ⟨"q"⟩], .addChild ⟨"p"⟩ ⟨"q"⟩]).parents ⟨"q"⟩ =
    {⟨"p"⟩} := by
  decide

example : ((∅ : Taxonomy).revise (.addChild ⟨"p"⟩ ⟨"q"⟩)).1 = ∅ := by decide

end Taxonomy

end Subsumption
