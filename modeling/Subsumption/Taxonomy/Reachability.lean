import Subsumption.Taxonomy.Basic
/-!
Ancestors and descendants, the atoms reached by one edge or more.  An atom enters the
list of those not yet examined at most once, so the search ends on every taxonomy,
cyclic or not.
-/

namespace Subsumption.Taxonomy

/-- The neighbours of an element on one side. -/
abbrev Side := Element → AtomSet

/-- Every atom that some element has as a neighbour on the given side. -/
def neighbours (t : Taxonomy) (side : Side) : AtomSet :=
  .unionAll (t.elements.toList.map fun entry => side entry.2)

theorem mem_neighbours {t : Taxonomy} {side : Side} {a : Atom} {e : Element}
    (he : t.elements[a]? = some e) {b : Atom} (hb : b ∈ side e) : b ∈ t.neighbours side := by
  have hmem : (a, e) ∈ t.elements.toList := by simpa using he
  simp only [neighbours, AtomSet.mem_unionAll, List.mem_map]
  exact ⟨side e, ⟨(a, e), hmem, rfl⟩, hb⟩

/-- Examines the `pending` atoms, all of which are among those `reached`. -/
def closure (t : Taxonomy) (side : Side) (reached : AtomSet) :
    List Atom → Except TaxonomyError AtomSet
  | [] => .ok reached
  | a :: pending =>
    match _h : t.elements[a]? with
    | none => .error (.notFound a)
    | some e =>
      let new := side e \ reached
      t.closure side (reached ∪ new) (new.toList ++ pending)
termination_by pending => (t.neighbours side \ reached).size + pending.length
decreasing_by
  -- What is new moves from the atoms outside to those pending, and one pending atom is gone.
  have hsub : ∀ b, b ∈ side e → b ∈ t.neighbours side := fun b hb => mem_neighbours _h hb
  have hsize := AtomSet.size_diff_union (r := reached) hsub
  simp only [List.length_append, List.length_cons, Std.ExtTreeSet.length_toList]
  omega

/-- What can be reached from an element by one edge or more to the given side. -/
def reach (t : Taxonomy) (side : Side) (a : Atom) :
    Except TaxonomyError AtomSet := do
  let e ← t.element a
  t.closure side (side e) (side e).toList

/-- The atoms that the element entails. -/
def ancestors (t : Taxonomy) (a : Atom) : Except TaxonomyError AtomSet :=
  t.reach Element.parents a

/-- The atoms that entail the element. -/
def descendants (t : Taxonomy) (a : Atom) : Except TaxonomyError AtomSet :=
  t.reach Element.children a

example :
    let t : Taxonomy := { elements := (∅ : Elements).insert ⟨"p"⟩ { parents := {⟨"p"⟩} } }
    (t.ancestors ⟨"p"⟩).toOption = some {⟨"p"⟩} := by
  decide +kernel

end Subsumption.Taxonomy
