import Subsumption.Json.Reading
import Subsumption.Taxonomy.Revision
/-!
Taxonomies as JSON.  A record is read as a taxonomy only if it is consistent, and its
edges are then added one by one under its policy.  The reader is more generous than
the writer.
-/

namespace Subsumption

namespace CyclePolicy

def toJson (p : CyclePolicy) : Json := .ofString p.text

/-- Reads a policy from its word, or from an object whose one key is the word
and whose value is null. -/
def ofJson? : Json → Option CyclePolicy
  | .string text => text >>= ofText?
  | .object [(text, .null)] => text >>= ofText?
  | _ => none

def read? (text : String) : Option CyclePolicy := Json.read? text >>= ofJson?

end CyclePolicy

/-- A taxonomy as it is stored. -/
structure Record where
  policy : CyclePolicy
  elements : Elements
deriving DecidableEq

def AtomSet.toJson (s : AtomSet) : Json := .ofStrings s.names

def Element.toJson (e : Element) : Json :=
  .ofMembers [("children", e.children.toJson), ("parents", e.parents.toJson)]

/-- The elements as an object, in order of name. -/
def Elements.toJson (elements : Elements) : Json :=
  .ofMembers (elements.toList.map fun (a, e) => (a.name, e.toJson))

namespace Record

def toJson (r : Record) : Json :=
  .ofMembers [("cycle_policy", r.policy.toJson), ("elements", r.elements.toJson)]

def text (r : Record) : String := r.toJson.compact

end Record

/-- Reads a set from an array of names, which may be repeated. -/
def AtomSet.ofJson? (json : Json) : Option AtomSet :=
  json.texts?.map fun names => .ofList (names.map Atom.mk)

/-- The values of two known keys, each of which may be missing but not
repeated.  Other keys are passed over. -/
def Json.optionalMembers? (members : List (Text × Json)) (key key' : String) :
    Option (Option Json × Option Json) := do
  guard (members.all fun m => m.1.isSome)
  match valuesOf members key, valuesOf members key' with
  | [], [] => return (none, none)
  | [v], [] => return (some v, none)
  | [], [v'] => return (none, some v')
  | [v], [v'] => return (some v, some v')
  | _, _ => none

namespace Element

/-- Reads an element from its children and parents, either of which may be
missing. -/
def ofParts? (children parents : Option Json) : Option Element := do
  let children ← children.elim (some ∅) AtomSet.ofJson?
  let parents ← parents.elim (some ∅) AtomSet.ofJson?
  return { children, parents }

/-- Reads an element from an object, or from an array of its parts in order. -/
def ofJson? : Json → Option Element
  | .object members => do
    let (children, parents) ← Json.optionalMembers? members "children" "parents"
    ofParts? children parents
  | .array [] => ofParts? none none
  | .array [children] => ofParts? children none
  | .array [children, parents] => ofParts? children parents
  | _ => none

end Element

/-- Reads elements from an object.  Every one must be well formed, and of
those with the same name the last is kept. -/
def Elements.ofJson? : Json → Option Elements
  | .object members => do
    let entries ← members.mapM fun (name, value) => do
      return (Atom.mk (← name), ← Element.ofJson? value)
    return Std.ExtTreeMap.ofList entries
  | _ => none

namespace Record

/-- Reads a record from its policy, which may be missing, and its elements. -/
def ofParts? (policy : Option Json) (elements : Json) : Option Record := do
  let policy ← policy.elim (some ({} : Settings).cyclePolicy.value) CyclePolicy.ofJson?
  let elements ← Elements.ofJson? elements
  return { policy, elements }

/-- Reads a record from an object, or from an array of its two parts. -/
def ofJson? : Json → Option Record
  | .object members => do
    let (policy, elements) ← Json.optionalMembers? members "cycle_policy" "elements"
    ofParts? policy (← elements)
  | .array [policy, elements] => ofParts? policy elements
  | _ => none

def read? (text : String) : Option Record := Json.read? text >>= ofJson?

/-- What is wrong with the edge to a recorded child of `parent`. -/
def childDefect? (r : Record) (parent child : Atom) : Option TaxonomyError :=
  match r.elements[child]? with
  | none => some (.notFound child)
  | some e => if parent ∈ e.parents then none else some (.oneSidedEdge parent child)

/-- What is wrong with the edge to a recorded parent of `child`. -/
def parentDefect? (r : Record) (child parent : Atom) : Option TaxonomyError :=
  match r.elements[parent]? with
  | none => some (.notFound parent)
  | some e => if child ∈ e.children then none else some (.oneSidedEdge parent child)

/-- The first defect of the record, with its elements in order and the
children of an element before its parents. -/
def defect? (r : Record) : Option TaxonomyError :=
  r.elements.toList.findSome? fun (a, e) =>
    e.children.toList.findSome? (r.childDefect? a) <|>
      e.parents.toList.findSome? (r.parentDefect? a)

/-- The default settings with the policy of the record. -/
def settings (r : Record) : Settings := Settings.setCyclePolicy {} r.policy

/-- Adds the elements of the record, and then the edges that parents note. -/
def rebuild (r : Record) : Procedure Unit := do
  forM r.elements.keys fun a => do let _ ← Procedure.addElement a
  forM r.elements.toList fun (child, e) =>
    forM e.parents.toList fun parent => Procedure.addEdge parent child

/-- The taxonomy that is rebuilt from a record without a defect. -/
def toTaxonomy (r : Record) : Except TaxonomyError Taxonomy :=
  match r.defect? with
  | some e => .error e
  | none => (Taxonomy.ofSettings r.settings).built r.rebuild

end Record

def Taxonomy.record (t : Taxonomy) : Record := { policy := t.policy, elements := t.elements }

end Subsumption
