import Subsumption.Proofs.Taxonomy.Hierarchy
/-!
Adding many edges, one after the other.  Either all of them are added, or one is
refused because it closes a cycle, and then it lies on a cycle of the graph with all
of them.
-/

namespace Subsumption

open Relation

namespace Hierarchy

variable {g : Hierarchy} {edges : List (Atom × Atom)} {a b parent child : Atom}

/-- The graph with further edges, each a pair of a child and a parent. -/
def withEdges (g : Hierarchy) (edges : List (Atom × Atom)) : Hierarchy :=
  { g with edges := {edge | edge ∈ edges} ∪ g.edges }

theorem withEdges_nil (g : Hierarchy) : g.withEdges [] = g := by
  simp [withEdges]

theorem withEdges_cons (g : Hierarchy) (edge : Atom × Atom) (edges : List (Atom × Atom)) :
    g.withEdges (edge :: edges) = (g.after (.addEdge edge.2 edge.1)).withEdges edges := by
  apply Hierarchy.ext
  · rfl
  · ext other
    change other ∈ edge :: edges ∨ other ∈ g.edges ↔
      other ∈ edges ∨ other = edge ∨ other ∈ g.edges
    rw [List.mem_cons, or_assoc, or_left_comm]

theorem edge_withEdges : (g.withEdges edges).Edge a b ↔ (a, b) ∈ edges ∨ g.Edge a b := Iff.rfl

/-- What an edge closes among few edges it also closes among more. -/
theorem ClosesCycle.withEdges (h : g.ClosesCycle parent child) :
    (g.withEdges edges).ClosesCycle parent child :=
  ReflTransGen.mono (fun _ _ hedge => edge_withEdges.2 (Or.inr hedge)) _ _ h

end Hierarchy

namespace Taxonomy

variable {t t' : Taxonomy} {edges : List (Atom × Atom)} {parent child : Atom} {x : TaxonomyError}

/-- An edge between elements is added or refused for the cycle that it closes. -/
theorem Consistent.addEdge_cases (h : t.Consistent) (hparent : parent ∈ t) (hchild : child ∈ t) :
    t.addEdge parent child = .ok (t.link parent child) ∨
      (t.policy = .reject ∧ t.hierarchy.ClosesCycle parent child ∧
        t.addEdge parent child = .error (.cycle parent child)) := by
  cases hadd : t.addEdge parent child with
  | ok t' =>
    obtain ⟨-, -, -, rfl⟩ := addEdge_eq_ok_iff.1 hadd
    exact Or.inl rfl
  | error x =>
    right
    cases h.addEdge_eq_error_iff.1 hadd with
    | addEdge_parent hnone => exact absurd hparent hnone
    | addEdge_child _ hnone => exact absurd hchild hnone
    | addEdge_cycle _ _ hpolicy hcloses => exact ⟨hpolicy, hcloses, rfl⟩

/-- Adds edges in turn, each a pair of a child and a parent, up to the first
that is refused. -/
def addEdges (t : Taxonomy) (edges : List (Atom × Atom)) : Except TaxonomyError Taxonomy :=
  edges.foldlM (fun t edge => t.addEdge edge.2 edge.1) t

theorem changes_addEdges (h : t.addEdges edges = .ok t') : Changes t t' :=
  changes_of_foldlM_eq_ok (fun _ _ _ hadd => .single (.addEdge hadd)) edges h

/-- The graph has all of the edges afterwards, unless one of them is refused
for a cycle. -/
theorem Consistent.addEdges_cases (h : t.Consistent)
    (hends : ∀ edge ∈ edges, edge.1 ∈ t ∧ edge.2 ∈ t) :
    (∃ t', t.addEdges edges = .ok t' ∧ t'.hierarchy = t.hierarchy.withEdges edges) ∨
      (t.policy = .reject ∧ ∃ edge ∈ edges,
        (t.hierarchy.withEdges edges).ClosesCycle edge.2 edge.1 ∧
          t.addEdges edges = .error (.cycle edge.2 edge.1)) := by
  induction edges generalizing t with
  | nil => exact Or.inl ⟨t, rfl, (Hierarchy.withEdges_nil _).symm⟩
  | cons edge edges ih =>
    obtain ⟨⟨hchild, hparent⟩, hrest⟩ := List.forall_mem_cons.1 hends
    have hstep : t.addEdges (edge :: edges) =
        (t.addEdge edge.2 edge.1).bind fun t' => t'.addEdges edges := List.foldlM_cons
    rw [hstep]
    rcases h.addEdge_cases hparent hchild with hadd | ⟨hpolicy, hcloses, hadd⟩
    · have hends' : ∀ e ∈ edges, e.1 ∈ t.link edge.2 edge.1 ∧ e.2 ∈ t.link edge.2 edge.1 :=
        fun e he => ⟨mem_link.2 (hrest e he).1, mem_link.2 (hrest e he).2⟩
      rw [hadd, Hierarchy.withEdges_cons, ← hierarchy_link hchild]
      rcases ih (h.link hparent hchild) hends' with hok | ⟨hpolicy, e, he, hrefused⟩
      · exact Or.inl hok
      · exact Or.inr ⟨hpolicy, e, List.mem_cons_of_mem edge he, hrefused⟩
    · rw [hadd]
      exact Or.inr ⟨hpolicy, edge, List.mem_cons_self, hcloses.withEdges, rfl⟩

/-- In a consistent taxonomy the graph says what is recorded of each element. -/
theorem Consistent.elements_eq_of_hierarchy_eq (h : t.Consistent) (h' : t'.Consistent)
    (hgraph : t.hierarchy = t'.hierarchy) : t.elements = t'.elements := by
  have hmem (a : Atom) : a ∈ t ↔ a ∈ t' := Set.ext_iff.1 (congrArg Hierarchy.vertices hgraph) a
  have hedge (a b : Atom) : t.Edge a b ↔ t'.Edge a b :=
    Set.ext_iff.1 (congrArg Hierarchy.edges hgraph) (a, b)
  apply Std.ExtTreeMap.ext_getElem?
  intro a
  by_cases ha : a ∈ t
  · obtain ⟨e, he⟩ := mem_iff.1 ha
    obtain ⟨e', he'⟩ := mem_iff.1 ((hmem a).1 ha)
    have hchildren : e.children = e'.children := by
      apply Std.ExtTreeSet.ext_mem
      intro b
      calc b ∈ e.children ↔ t.Adjacent Element.children a b := (adjacent_iff he).symm
        _ ↔ t.Edge b a := h.child_iff_parent a b
        _ ↔ t'.Edge b a := hedge b a
        _ ↔ t'.Adjacent Element.children a b := (h'.child_iff_parent a b).symm
        _ ↔ b ∈ e'.children := adjacent_iff he'
    have hparents : e.parents = e'.parents := by
      apply Std.ExtTreeSet.ext_mem
      intro b
      calc b ∈ e.parents ↔ t.Adjacent Element.parents a b := (adjacent_iff he).symm
        _ ↔ t'.Adjacent Element.parents a b := hedge a b
        _ ↔ b ∈ e'.parents := adjacent_iff he'
    rw [he, he', Option.some.injEq]
    cases e
    cases e'
    cases hchildren
    cases hparents
    rfl
  · rw [Std.ExtTreeMap.getElem?_eq_none ha,
      Std.ExtTreeMap.getElem?_eq_none (mt (hmem a).2 ha)]

theorem Consistent.eq_of_hierarchy_eq (h : t.Consistent) (h' : t'.Consistent)
    (hpolicy : t.policy = t'.policy) (hgraph : t.hierarchy = t'.hierarchy) : t = t' := by
  have helements := h.elements_eq_of_hierarchy_eq h' hgraph
  cases t
  cases t'
  cases hpolicy
  cases helements
  rfl

end Taxonomy

end Subsumption
