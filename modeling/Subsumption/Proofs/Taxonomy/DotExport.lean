import Subsumption.Proofs.Diagram.DotText
import Subsumption.Proofs.Taxonomy.EdgeLists
import Subsumption.Proofs.Taxonomy.EdgeOrder
/-!
The dot text of a taxonomy shows the diagram, and the diagram shows the graph.  The
policy is the one thing that the text does not show.
-/

namespace Subsumption

namespace Taxonomy

variable {t t' : Taxonomy}

theorem Consistent.edgeList_eq_of_diagram_eq (h : t.Consistent) (h' : t'.Consistent)
    (hdiagram : t.diagram = t'.diagram) : t.edgeList = t'.edgeList := by
  have hends : Function.Injective fun edge : Atom × Atom => (some edge.1, some edge.2) := by
    rintro ⟨child, parent⟩ ⟨child', parent'⟩ hsame
    cases hsame
    rfl
  apply hends.list_map
  rw [← h.map_nodes_edges, ← h'.map_nodes_edges, hdiagram]

theorem Consistent.hierarchy_eq_of_diagram_eq (h : t.Consistent) (h' : t'.Consistent)
    (hdiagram : t.diagram = t'.diagram) : t.hierarchy = t'.hierarchy := by
  apply Hierarchy.ext
  · ext a
    have hnodes : a ∈ t.diagram.nodes ↔ a ∈ t'.diagram.nodes := by rw [hdiagram]
    calc a ∈ t ↔ a ∈ t.diagram.nodes := Std.ExtTreeMap.mem_keys.symm
      _ ↔ a ∈ t'.diagram.nodes := hnodes
      _ ↔ a ∈ t' := Std.ExtTreeMap.mem_keys
  · ext ⟨child, parent⟩
    have hlists := h.edgeList_eq_of_diagram_eq h' hdiagram
    calc t.Edge child parent ↔ (child, parent) ∈ t.edgeList := mem_edgeList.symm
      _ ↔ (child, parent) ∈ t'.edgeList := by rw [hlists]
      _ ↔ t'.Edge child parent := mem_edgeList

theorem diagram_eq_of_elements_eq (h : t.elements = t'.elements) : t.diagram = t'.diagram := by
  rw [diagram, diagram, h]

/-- Reachable taxonomies have the same dot text exactly when they have the same
elements with the same children and parents.  The text is a line for each node and then
for each edge; a label ends at the first quote that is not escaped, whatever the name
is; and where a line stands no line for any other node or edge can be read. -/
theorem Reachable.dot_eq_iff (h : t.Reachable) (h' : t'.Reachable) :
    (t.dot = t'.dot ↔ t.elements = t'.elements) ∧
      t.dot = "digraph \x7b\n" ++ String.join (t.diagram.lines.map Diagram.Line.text) ++
        "\x7d\n" ∧
      (∀ a rest, Diagram.afterQuote? ((Diagram.label a).toList ++ '"' :: rest) = some rest) ∧
      (∀ (line line' : Diagram.Line) (rest rest' : String),
        line.text ++ rest = line'.text ++ rest' → line = line' ∧ rest = rest') := by
  refine ⟨⟨fun hdot => ?_, fun helements => ?_⟩, t.diagram.dot_eq_join_lines,
    Diagram.afterQuote?_label_append, fun line line' rest rest' htext => ?_⟩
  · have hconsistent : t.Consistent := .of_reachable h
    have hconsistent' : t'.Consistent := .of_reachable h'
    have hdiagram : t.diagram = t'.diagram := Diagram.eq_of_dot_eq hdot
    have hgraph := hconsistent.hierarchy_eq_of_diagram_eq hconsistent' hdiagram
    exact hconsistent.elements_eq_of_hierarchy_eq hconsistent' hgraph
  · rw [dot, dot, diagram_eq_of_elements_eq helements]
  · have hchars : line.text.toList ++ rest.toList = line'.text.toList ++ rest'.toList := by
      simpa using congrArg String.toList htext
    obtain ⟨hline, hrest⟩ := line.delimited line' trivial _ _ trivial trivial hchars
    exact ⟨hline, String.toList_inj.1 hrest⟩

/-- A name that looks like the end of one node and the beginning of the next. -/
def twoNodes : Atom := ⟨"p\" ]\n    1 [ label = \"q"⟩

/-- Two awkward names, where cycles are rejected. -/
def rejectingPair : Taxonomy :=
  (ofSettings rejecting).run
    [.addElements [twoNodes, ⟨"\\ -> \""⟩], .addChild twoNodes ⟨"\\ -> \""⟩]

/-- The same names added in another order, where cycles are permitted. -/
def permittingPair : Taxonomy :=
  (ofSettings {}).run
    [.addElements [⟨"\\ -> \""⟩, twoNodes], .addParent ⟨"\\ -> \""⟩ twoNodes]

theorem dot_eq_iff_awkward_pairs :
    rejectingPair.Reachable ∧ permittingPair.Reachable ∧ rejectingPair ≠ permittingPair ∧
      rejectingPair.dot = permittingPair.dot ∧
      rejectingPair.elements = permittingPair.elements := by
  have hreachable : rejectingPair.Reachable := (Reachable.ofSettings _).run _
  have hreachable' : permittingPair.Reachable := (Reachable.ofSettings _).run _
  have hpolicy : rejectingPair ≠ permittingPair := by
    intro hsame
    exact absurd (congrArg policy hsame) (by decide +kernel)
  have hdot : rejectingPair.dot = permittingPair.dot := by decide +kernel
  obtain ⟨hiff, -⟩ := Reachable.dot_eq_iff hreachable hreachable'
  exact ⟨hreachable, hreachable', hpolicy, hdot, hiff.1 hdot⟩

end Taxonomy

end Subsumption
