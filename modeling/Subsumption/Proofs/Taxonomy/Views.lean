import Subsumption.Proofs.Diagram.Cycles
import Subsumption.Proofs.Taxonomy.Refinement
/-!
The views of a taxonomy agree.  Ancestors, descendants and the cycles of the diagram
are found in different records of the edges, and show the same paths.
-/

namespace Subsumption

namespace Taxonomy

open Relation

variable {t : Taxonomy} {a b : Atom} {i j : Nat}

/-- The index of an element among the elements in order. -/
def index (t : Taxonomy) (a : Atom) : Nat := (t.elements.keys.idxOf? a).getD 0

theorem idxOf?_keys (ha : a ∈ t) : t.elements.keys.idxOf? a = some (t.index a) := by
  have hkey : a ∈ t.elements.keys := Std.ExtTreeMap.mem_keys.2 ha
  obtain ⟨i, hi⟩ := Option.isSome_iff_exists.1 (List.isSome_idxOf?.2 hkey)
  rw [index, hi]
  rfl

/-- The element with an index, if there is one. -/
def elementAt (t : Taxonomy) (i : Nat) : Atom := t.elements.keys[i]?.getD ⟨""⟩

theorem getElem?_index (ha : a ∈ t) : t.elements.keys[t.index a]? = some a := by
  obtain ⟨hlt, hget, -⟩ := List.idxOf?_eq_some_iff.1 (idxOf?_keys ha)
  rw [List.getElem?_eq_getElem hlt, hget]

theorem elementAt_index (ha : a ∈ t) : t.elementAt (t.index a) = a := by
  rw [elementAt, getElem?_index ha]
  rfl

theorem index_lt (ha : a ∈ t) : t.index a < t.elements.keys.length :=
  (List.getElem?_eq_some_iff.1 (getElem?_index ha)).1

namespace Consistent

/-- No edge is left out of the diagram. -/
theorem edges_diagram (h : t.Consistent) :
    t.diagram.edges = t.edgeList.map fun edge => (t.index edge.1, t.index edge.2) := by
  have hindex : ∀ edge ∈ t.edgeList, (do return (← t.elements.keys.idxOf? edge.1,
      ← t.elements.keys.idxOf? edge.2)) = some (t.index edge.1, t.index edge.2) := by
    intro edge hedge
    obtain ⟨hchild, hparent⟩ := h.mem_of_edge (mem_edgeList.1 hedge)
    rw [idxOf?_keys hchild, idxOf?_keys hparent]
    rfl
  have hlist : t.diagram.edges = t.edgeList.filterMap fun edge => do
      return (← t.elements.keys.idxOf? edge.1, ← t.elements.keys.idxOf? edge.2) := by
    simp [diagram, edgeList, List.filterMap_flatMap, List.filterMap_map]
  rw [hlist, List.filterMap_congr hindex, List.filterMap_eq_map']

theorem wellFormed_diagram (h : t.Consistent) : t.diagram.WellFormed := by
  intro edge hedge
  rw [h.edges_diagram] at hedge
  obtain ⟨⟨child, parent⟩, hmem, rfl⟩ := List.mem_map.1 hedge
  obtain ⟨hchild, hparent⟩ := h.mem_of_edge (mem_edgeList.1 hmem)
  exact ⟨index_lt hchild, index_lt hparent⟩

theorem edge_diagram_iff (h : t.Consistent) :
    t.diagram.Edge i j ↔ ∃ a b, t.Edge a b ∧ t.index a = i ∧ t.index b = j := by
  rw [Diagram.Edge, h.edges_diagram, List.mem_map]
  simp only [Prod.exists, mem_edgeList, Prod.mk.injEq]

/-- A path in the diagram is a path in the taxonomy. -/
theorem cyclic_diagram_iff (h : t.Consistent) :
    t.diagram.Cyclic ↔ ∃ a, TransGen t.Edge a a := by
  constructor
  · rintro ⟨i, hcycle⟩
    refine ⟨t.elementAt i, TransGen.lift t.elementAt ?_ _ _ hcycle⟩
    intro i j hedge
    obtain ⟨a, b, hab, rfl, rfl⟩ := h.edge_diagram_iff.1 hedge
    obtain ⟨ha, hb⟩ := h.mem_of_edge hab
    change t.Edge (t.elementAt (t.index a)) (t.elementAt (t.index b))
    rw [elementAt_index ha, elementAt_index hb]
    exact hab
  · rintro ⟨a, hcycle⟩
    refine ⟨t.index a, TransGen.lift t.index ?_ _ _ hcycle⟩
    intro a b hab
    exact h.edge_diagram_iff.2 ⟨a, b, hab, rfl, rfl⟩

/-- There is no cycle when no element reaches itself. -/
theorem isAcyclic_iff (h : t.Consistent) :
    t.isAcyclic = true ↔ ∀ a ∈ t, ¬ TransGen t.Edge a a := by
  rw [isAcyclic, Diagram.isAcyclic_iff, h.cyclic_diagram_iff, not_exists]
  constructor
  · intro hnone a _
    exact hnone a
  · intro hnone a hcycle
    obtain ⟨b, hedge, -⟩ := TransGen.head'_iff.1 hcycle
    exact hnone a (h.mem_of_edge hedge).1 hcycle

end Consistent

/-- One element is an ancestor of another exactly when the other is its
descendant.  The diagram has no cycle, by any test that finds them, exactly when
no element is its own ancestor, and exactly when none is its own descendant. -/
theorem Reachable.views_agree (h : t.Reachable) :
    (∀ a ∈ t, ∀ b ∈ t, ∃ above below, t.ancestors a = .ok above ∧ t.descendants b = .ok below ∧
      (b ∈ above ↔ a ∈ below)) ∧
    (∀ isCyclic, Diagram.FindsCycles isCyclic → t.isAcyclic = !isCyclic t.diagram) ∧
    (t.isAcyclic = true ↔ ∀ a ∈ t, ∃ above, t.ancestors a = .ok above ∧ a ∉ above) ∧
    (t.isAcyclic = true ↔ ∀ a ∈ t, ∃ below, t.descendants a = .ok below ∧ a ∉ below) := by
  have hconsistent : t.Consistent := .of_reachable h
  refine ⟨?_, ?_, ?_, ?_⟩
  · intro a ha b hb
    obtain ⟨above, habove, hup⟩ := hconsistent.exists_ancestors ha
    obtain ⟨below, hbelow, hdown⟩ := hconsistent.exists_descendants hb
    exact ⟨above, below, habove, hbelow, (hup b).trans (hdown a).symm⟩
  · intro isCyclic hfinds
    rw [isAcyclic, Bool.eq_iff_iff, Diagram.isAcyclic_iff,
      ← hfinds _ hconsistent.wellFormed_diagram, Bool.not_eq_true', Bool.not_eq_true]
  · rw [hconsistent.isAcyclic_iff]
    apply forall₂_congr
    intro a ha
    obtain ⟨above, habove, hup⟩ := hconsistent.exists_ancestors ha
    simp [habove, hup]
  · rw [hconsistent.isAcyclic_iff]
    apply forall₂_congr
    intro a ha
    obtain ⟨below, hbelow, hdown⟩ := hconsistent.exists_descendants ha
    simp [hbelow, hdown]

theorem views_agree_tangle :
    tangle.Reachable ∧ ⟨"p"⟩ ∈ tangle ∧ ⟨"r"⟩ ∈ tangle ∧
      (∃ below, tangle.descendants ⟨"r"⟩ = .ok below ∧ ⟨"p"⟩ ∈ below) ∧
      Diagram.FindsCycles (fun d => !d.isAcyclic) ∧ tangle.isAcyclic = false := by
  have hp : (⟨"p"⟩ : Atom) ∈ tangle := by decide
  have hr : (⟨"r"⟩ : Atom) ∈ tangle := by decide
  have hrun : tangle.ancestors ⟨"p"⟩ = .ok {⟨"p"⟩, ⟨"q"⟩, ⟨"r"⟩} := by decide +kernel
  obtain ⟨hopposite, hany, hancestors, -⟩ := Reachable.views_agree reachable_tangle
  refine ⟨reachable_tangle, hp, hr, ?_, Diagram.findsCycles_not_isAcyclic, ?_⟩
  · obtain ⟨above, below, habove, hbelow, hiff⟩ := hopposite _ hp _ hr
    obtain rfl : {⟨"p"⟩, ⟨"q"⟩, ⟨"r"⟩} = above := Except.ok.inj (hrun.symm.trans habove)
    exact ⟨below, hbelow, hiff.1 (by decide)⟩
  · rw [hany _ Diagram.findsCycles_not_isAcyclic, Bool.not_not, ← Bool.not_eq_true]
    intro hacyclic
    obtain ⟨above, habove, hnone⟩ := hancestors.1 hacyclic _ hp
    obtain rfl : {⟨"p"⟩, ⟨"q"⟩, ⟨"r"⟩} = above := Except.ok.inj (hrun.symm.trans habove)
    exact absurd (by decide) hnone

end Taxonomy

end Subsumption
