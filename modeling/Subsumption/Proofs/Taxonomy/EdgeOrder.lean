import Subsumption.Proofs.Taxonomy.Forcing
import Subsumption.Proofs.Taxonomy.Views
/-!
The edges in order.  The diagram and the constraints come upon the edges in strict
order of child and then of parent, by the recorded parents alone, and the children
show the same edges.
-/

namespace Subsumption

namespace Taxonomy

open Formula

/-- Edges are ordered by child, and by parent when the children agree. -/
def EdgeBefore (edge edge' : Atom × Atom) : Prop :=
  edge.1 < edge'.1 ∨ edge.1 = edge'.1 ∧ edge.2 < edge'.2

variable {t : Taxonomy}

theorem not_edgeBefore_self (edge : Atom × Atom) : ¬ EdgeBefore edge edge := by
  have hirrefl (a : Atom) : ¬ a < a := String.lt_irrefl a.name
  rintro (hchild | ⟨-, hparent⟩)
  · exact hirrefl _ hchild
  · exact hirrefl _ hparent

theorem pairwise_edgeList (t : Taxonomy) : t.edgeList.Pairwise EdgeBefore := by
  rw [edgeList, List.pairwise_flatMap]
  constructor
  · rintro ⟨child, e⟩ _
    apply List.pairwise_map.2
    apply Std.ExtTreeSet.ordered_toList.imp
    intro parent parent' hbefore
    exact Or.inr ⟨rfl, Atom.compare_eq_lt.1 hbefore⟩
  · apply Std.ExtTreeMap.ordered_keys_toList.imp
    rintro ⟨child, e⟩ ⟨child', e'⟩ hbefore edge hedge edge' hedge'
    obtain ⟨parent, -, rfl⟩ := List.mem_map.1 hedge
    obtain ⟨parent', -, rfl⟩ := List.mem_map.1 hedge'
    exact Or.inl (Atom.compare_eq_lt.1 hbefore)

theorem nodup_edgeList (t : Taxonomy) : t.edgeList.Nodup := by
  apply t.pairwise_edgeList.imp
  rintro edge _ hbefore rfl
  exact not_edgeBefore_self edge hbefore

/-- An edge is listed once if it is recorded with the child, and not otherwise. -/
theorem count_edgeList (t : Taxonomy) (child parent : Atom) :
    t.edgeList.count (child, parent) = if parent ∈ t.parents child then 1 else 0 := by
  rw [t.nodup_edgeList.count]
  exact if_congr mem_edgeList rfl rfl

/-- The children show the same edges as the parents. -/
theorem Consistent.count_edgeList (h : t.Consistent) (child parent : Atom) :
    t.edgeList.count (child, parent) = if child ∈ t.children parent then 1 else 0 := by
  rw [t.count_edgeList]
  exact if_congr (h.child_iff_parent parent child).symm rfl rfl

theorem pairwise_nodes (t : Taxonomy) : t.diagram.nodes.Pairwise (· < ·) :=
  Std.ExtTreeMap.ordered_keys.imp Atom.compare_eq_lt.1

/-- The indices of an edge lead back to its ends. -/
theorem Consistent.map_nodes_edges (h : t.Consistent) :
    t.diagram.edges.map (fun edge => (t.diagram.nodes[edge.1]?, t.diagram.nodes[edge.2]?)) =
      t.edgeList.map fun edge => (some edge.1, some edge.2) := by
  rw [h.edges_diagram, List.map_map]
  apply List.map_congr_left
  rintro ⟨child, parent⟩ hedge
  obtain ⟨hchild, hparent⟩ := h.mem_of_edge (mem_edgeList.1 hedge)
  exact Prod.ext (getElem?_index hchild) (getElem?_index hparent)

/-- No edge is lost for want of an index. -/
theorem Consistent.exists_indices (h : t.Consistent) {child parent : Atom}
    (hedge : t.Edge child parent) :
    ∃ i j, t.diagram.nodes.idxOf? child = some i ∧ t.diagram.nodes.idxOf? parent = some j ∧
      (i, j) ∈ t.diagram.edges := by
  obtain ⟨hchild, hparent⟩ := h.mem_of_edge hedge
  refine ⟨t.index child, t.index parent, idxOf?_keys hchild, idxOf?_keys hparent, ?_⟩
  exact h.edge_diagram_iff.2 ⟨child, parent, hedge, rfl, rfl⟩

/-- The diagram has the elements in order for its nodes, and its edges join, in
the same order, the ends of the implications that the constraints consist of.
These come in strict order of child and then of parent, and each edge is among
them once, whether it is looked up at its child or at its parent.  An index is
found for both of its ends. -/
theorem Reachable.diagram_lists_constraints (h : t.Reachable) :
    t.diagram.nodes.Pairwise (· < ·) ∧ (∀ a, a ∈ t.diagram.nodes ↔ a ∈ t) ∧
      t.constraints = conj (t.edgeList.map fun edge => imp (atom edge.1) (atom edge.2)) ∧
      t.diagram.edges.map (fun edge => (t.diagram.nodes[edge.1]?, t.diagram.nodes[edge.2]?)) =
        t.edgeList.map (fun edge => (some edge.1, some edge.2)) ∧
      t.edgeList.Pairwise EdgeBefore ∧
      (∀ child parent, t.edgeList.count (child, parent) =
        if parent ∈ t.parents child then 1 else 0) ∧
      (∀ child parent, t.edgeList.count (child, parent) =
        if child ∈ t.children parent then 1 else 0) ∧
      (∀ child parent, parent ∈ t.parents child →
        ∃ i j, t.diagram.nodes.idxOf? child = some i ∧ t.diagram.nodes.idxOf? parent = some j ∧
          (i, j) ∈ t.diagram.edges) := by
  have hconsistent : t.Consistent := .of_reachable h
  exact ⟨t.pairwise_nodes, fun _ => Std.ExtTreeMap.mem_keys, constraints_eq_conj_map,
    hconsistent.map_nodes_edges, t.pairwise_edgeList, t.count_edgeList,
    hconsistent.count_edgeList, fun _ _ => hconsistent.exists_indices⟩

theorem diagram_lists_constraints_tangle :
    tangle.Reachable ∧
      tangle.constraints = conj [imp (atom ⟨"p"⟩) (atom ⟨"q"⟩), imp (atom ⟨"p"⟩) (atom ⟨"r"⟩),
        imp (atom ⟨"q"⟩) (atom ⟨"p"⟩), imp (atom ⟨"q"⟩) (atom ⟨"q"⟩)] ∧
      tangle.diagram.edges.map
          (fun edge => (tangle.diagram.nodes[edge.1]?, tangle.diagram.nodes[edge.2]?)) =
        [(some ⟨"p"⟩, some ⟨"q"⟩), (some ⟨"p"⟩, some ⟨"r"⟩), (some ⟨"q"⟩, some ⟨"p"⟩),
          (some ⟨"q"⟩, some ⟨"q"⟩)] := by
  have hedges : tangle.edgeList = [(⟨"p"⟩, ⟨"q"⟩), (⟨"p"⟩, ⟨"r"⟩), (⟨"q"⟩, ⟨"p"⟩),
      (⟨"q"⟩, ⟨"q"⟩)] := by decide +kernel
  obtain ⟨-, -, hconstraints, hdiagram, -⟩ :=
    Reachable.diagram_lists_constraints reachable_tangle
  rw [hedges] at hconstraints hdiagram
  exact ⟨reachable_tangle, hconstraints, hdiagram⟩

end Taxonomy

end Subsumption
