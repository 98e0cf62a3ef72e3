import Std.Data.ExtTreeMap
import Subsumption.AtomSet
import Subsumption.Setting
import Subsumption.Taxonomy.Error
/-!
Taxonomies.

A taxonomy is a finite set of elements, each named by an atom, with edges from
children to parents: a child entails each of its parents.  Every edge is
recorded twice, with the parent and with the child.
-/

namespace Subsumption

/-- The edges of one element, from both sides. -/
structure Element where
  children : AtomSet := ∅
  parents : AtomSet := ∅
deriving DecidableEq

namespace Element

instance : Inhabited Element := ⟨{}⟩

def debugText (e : Element) : String :=
  let names (atoms : AtomSet) := "\x7b" ++ ", ".intercalate atoms.names ++ "\x7d"
  "Element \x7b children: " ++ names e.children ++ ", parents: " ++ names e.parents ++ " \x7d"

end Element

abbrev Elements := Std.ExtTreeMap Atom Element

/-- A hierarchy of elements, with the policy on cycles that it keeps to. -/
structure Taxonomy where
  policy : CyclePolicy := .permit
  elements : Elements := ∅
deriving DecidableEq

namespace Taxonomy

/-- The taxonomy without elements, built with the given settings.  It keeps the value of
the policy only, as no operation reads the name or the bounds of the policy again. -/
def ofSettings (settings : Settings) : Taxonomy := { policy := settings.cyclePolicy.value }

instance : EmptyCollection Taxonomy := ⟨ofSettings {}⟩

instance : Inhabited Taxonomy := ⟨∅⟩

instance : Membership Atom Taxonomy := ⟨fun t a => a ∈ t.elements⟩

instance (a : Atom) (t : Taxonomy) : Decidable (a ∈ t) :=
  inferInstanceAs (Decidable (a ∈ t.elements))

def size (t : Taxonomy) : Nat := t.elements.size

def element (t : Taxonomy) (a : Atom) : Except TaxonomyError Element :=
  match t.elements[a]? with
  | some e => .ok e
  | none => .error (.notFound a)

/-- The parents recorded for an atom; an atom that is no element has none. -/
def parents (t : Taxonomy) (a : Atom) : AtomSet :=
  (t.elements[a]?.getD {}).parents

/-- The children recorded for an atom; an atom that is no element has none. -/
def children (t : Taxonomy) (a : Atom) : AtomSet :=
  (t.elements[a]?.getD {}).children

theorem mem_iff {t : Taxonomy} {a : Atom} : a ∈ t ↔ ∃ e, t.elements[a]? = some e := by
  change a ∈ t.elements ↔ _
  rw [Std.ExtTreeMap.mem_iff_isSome_getElem?, Option.isSome_iff_exists]

theorem element_eq_ok_iff {t : Taxonomy} {a : Atom} {e : Element} :
    t.element a = .ok e ↔ t.elements[a]? = some e := by
  unfold element
  cases t.elements[a]? <;> simp

theorem mem_of_element_eq_ok {t : Taxonomy} {a : Atom} {e : Element} (h : t.element a = .ok e) :
    a ∈ t :=
  mem_iff.2 ⟨e, element_eq_ok_iff.1 h⟩

/-- Looking up an element fails exactly for the atoms that are no elements. -/
theorem element_eq_error_iff {t : Taxonomy} {a : Atom} {x : TaxonomyError} :
    t.element a = .error x ↔ a ∉ t ∧ x = .notFound a := by
  unfold element
  rw [mem_iff]
  cases t.elements[a]? <;> simp [eq_comm]

/-- Every neighbour of an element is an element, and every edge is recorded at
both of its ends. -/
structure Consistent (t : Taxonomy) : Prop where
  mem_of_child : ∀ a b, b ∈ t.children a → b ∈ t
  mem_of_parent : ∀ a b, b ∈ t.parents a → b ∈ t
  child_iff_parent : ∀ a b, b ∈ t.children a ↔ a ∈ t.parents b

end Taxonomy

end Subsumption
