import Subsumption.Proofs.Taxonomy.Acyclicity
/-!
The order in which edges are added.  No edge is taken away, so some test fails exactly
when all of the edges together have a cycle, and neither order nor repetition has a
say in the result.
-/

namespace Subsumption

/-- The edge that a revision asks to add, as a pair of a child and a parent. -/
def Revision.added? : Revision → Option (Atom × Atom)
  | .addChild parent child => some (child, parent)
  | .addParent child parent => some (child, parent)
  | _ => none

/-- Each of the revisions asks to add one of the edges, in the order of these. -/
def Revision.Adds (revisions : List Revision) (edges : List (Atom × Atom)) : Prop :=
  revisions.map added? = edges.map some

namespace Hierarchy

variable {g : Hierarchy} {edges edges' : List (Atom × Atom)}

theorem withEdges_congr (h : ∀ edge, edge ∈ edges ↔ edge ∈ edges') :
    g.withEdges edges = g.withEdges edges' := by
  simp [withEdges, h]

/-- An edge that closes a cycle and is there lies on a cycle. -/
theorem cyclic_withEdges {edge : Atom × Atom} (hedge : edge ∈ edges)
    (hcloses : (g.withEdges edges).ClosesCycle edge.2 edge.1) : (g.withEdges edges).Cyclic :=
  ⟨edge.1, .head' (edge_withEdges.2 (Or.inl hedge)) hcloses⟩

end Hierarchy

namespace Taxonomy

/-- Revises the taxonomy in turn, up to the first revision that fails. -/
def reviseAll (t : Taxonomy) : List Revision → Outcome
  | [] => (t, .ok .done)
  | revision :: rest =>
    match t.revise revision with
    | (t', .ok _) => t'.reviseAll rest
    | (t', .error x) => (t', .error x)

variable {t t' : Taxonomy} {edges edges' : List (Atom × Atom)}
  {revisions revisions' : List Revision}

theorem revise_of_added? {revision : Revision} {edge : Atom × Atom}
    (h : revision.added? = some edge) :
    t.revise revision = t.attempt ((t.addEdge edge.2 edge.1).map (.done, ·)) := by
  cases revision with
  | addChild | addParent =>
    cases h
    exact revise_eq_effect t _
  | _ => cases h

/-- From whichever end the edges are named, they are added one by one. -/
theorem reviseAll_of_adds (h : Revision.Adds revisions edges) :
    (∀ t', t.addEdges edges = .ok t' → t.reviseAll revisions = (t', .ok .done)) ∧
      ∀ x, t.addEdges edges = .error x → (t.reviseAll revisions).2 = .error x := by
  induction revisions generalizing t edges with
  | nil =>
    obtain rfl : edges = [] := List.map_eq_nil_iff.1 h.symm
    constructor
    · intro t' hok
      cases hok
      rfl
    · intro x herror
      cases herror
  | cons revision revisions ih =>
    obtain ⟨edge, rest, rfl, hedge, hrest⟩ := List.map_eq_cons_iff.1 h.symm
    have hadds : t.addEdges (edge :: rest) =
        (t.addEdge edge.2 edge.1).bind fun t' => t'.addEdges rest := List.foldlM_cons
    have hrevise := revise_of_added? (t := t) hedge.symm
    rw [hadds, reviseAll, hrevise]
    cases t.addEdge edge.2 edge.1 with
    | ok t₁ => exact ih hrest.symm
    | error y =>
      constructor
      · intro t' hok
        cases hok
      · intro x herror
        cases herror
        rfl

namespace Consistent

/-- All of the edges are added unless they close a cycle where that is rejected. -/
theorem exists_addEdges (h : t.Consistent) (hends : ∀ edge ∈ edges, edge.1 ∈ t ∧ edge.2 ∈ t)
    (hallowed : t.policy = .permit ∨ ¬ (t.hierarchy.withEdges edges).Cyclic) :
    ∃ t', t.addEdges edges = .ok t' ∧ t'.hierarchy = t.hierarchy.withEdges edges := by
  rcases h.addEdges_cases hends with hok | ⟨hpolicy, edge, hedge, hcloses, -⟩
  · exact hok
  · rcases hallowed with hpermit | hacyclic
    · rw [hpermit] at hpolicy
      cases hpolicy
    · exact absurd (Hierarchy.cyclic_withEdges hedge hcloses) hacyclic

/-- Where cycles are rejected, edges that close one are not all added. -/
theorem exists_addEdges_eq_error (h : t.Consistent)
    (hends : ∀ edge ∈ edges, edge.1 ∈ t ∧ edge.2 ∈ t) (hpolicy : t.policy = .reject)
    (hacyclic : ¬ t.hierarchy.Cyclic) (hcyclic : (t.hierarchy.withEdges edges).Cyclic) :
    ∃ edge ∈ edges, t.addEdges edges = .error (.cycle edge.2 edge.1) := by
  rcases h.addEdges_cases hends with ⟨t', hok, hgraph⟩ | ⟨-, edge, hedge, -, herror⟩
  · rw [← hgraph] at hcyclic
    exact absurd hcyclic (h.not_cyclic_of_changes (changes_addEdges hok) hpolicy hacyclic)
  · exact ⟨edge, hedge, herror⟩

/-- The same edges in another order lead to the same taxonomy. -/
theorem addEdges_eq_of_hierarchy_eq (h : t.Consistent) {t₁ t₂ : Taxonomy}
    (hfirst : t.addEdges edges = .ok t₁) (hsecond : t.addEdges edges' = .ok t₂)
    (hgraph : t₁.hierarchy = t₂.hierarchy) : t₁ = t₂ := by
  have hchanges := changes_addEdges hfirst
  have hchanges' := changes_addEdges hsecond
  have hpolicy := (policy_of_changes hchanges).trans (policy_of_changes hchanges').symm
  exact (h.changes hchanges).eq_of_hierarchy_eq (h.changes hchanges') hpolicy hgraph

end Consistent

/-- Two runs of additions that ask for the same edges end alike.  Where cycles
are permitted, or there would be none, both succeed and lead to the same
taxonomy, whose graph has all of the edges.  Where they are rejected and there
would be one, both fail for a cycle. -/
theorem Reachable.additions_commute (h : t.Reachable) (hadds : Revision.Adds revisions edges)
    (hadds' : Revision.Adds revisions' edges') (hsame : ∀ edge, edge ∈ edges ↔ edge ∈ edges')
    (hends : ∀ edge ∈ edges, edge.1 ∈ t ∧ edge.2 ∈ t) :
    (t.policy = .permit ∨ ¬ (t.hierarchy.withEdges edges).Cyclic →
      ∃ t', t.reviseAll revisions = (t', .ok .done) ∧ t.reviseAll revisions' = (t', .ok .done) ∧
        t'.hierarchy = t.hierarchy.withEdges edges) ∧
    (t.policy = .reject → (t.hierarchy.withEdges edges).Cyclic →
      (∃ edge ∈ edges, (t.reviseAll revisions).2 = .error (.cycle edge.2 edge.1)) ∧
        ∃ edge ∈ edges, (t.reviseAll revisions').2 = .error (.cycle edge.2 edge.1)) := by
  have hconsistent : t.Consistent := .of_reachable h
  have hgraphs := Hierarchy.withEdges_congr (g := t.hierarchy) hsame
  have hends' : ∀ edge ∈ edges', edge.1 ∈ t ∧ edge.2 ∈ t :=
    fun edge hedge => hends edge ((hsame edge).2 hedge)
  constructor
  · intro hallowed
    have hallowed' := hallowed
    rw [hgraphs] at hallowed'
    obtain ⟨t₁, hok, hgraph⟩ := hconsistent.exists_addEdges hends hallowed
    obtain ⟨t₂, hok', hgraph'⟩ := hconsistent.exists_addEdges hends' hallowed'
    obtain rfl : t₁ = t₂ := hconsistent.addEdges_eq_of_hierarchy_eq hok hok'
      (hgraph.trans (hgraphs.trans hgraph'.symm))
    exact ⟨t₁, (reviseAll_of_adds hadds).1 t₁ hok, (reviseAll_of_adds hadds').1 t₁ hok', hgraph⟩
  · intro hpolicy hcyclic
    have hacyclic := h.not_cyclic hpolicy
    have hcyclic' := hcyclic
    rw [hgraphs] at hcyclic'
    obtain ⟨edge, hedge, herror⟩ :=
      hconsistent.exists_addEdges_eq_error hends hpolicy hacyclic hcyclic
    obtain ⟨edge', hedge', herror'⟩ :=
      hconsistent.exists_addEdges_eq_error hends' hpolicy hacyclic hcyclic'
    exact ⟨⟨edge, hedge, (reviseAll_of_adds hadds).2 _ herror⟩,
      edge', (hsame edge').2 hedge', (reviseAll_of_adds hadds').2 _ herror'⟩

theorem additions_commute_tangle_chain :
    tangle.Reachable ∧ tangle.policy = .permit ∧
      (∃ t', tangle.reviseAll [.addParent ⟨"r"⟩ ⟨"p"⟩, .addChild ⟨"p"⟩ ⟨"p"⟩] = (t', .ok .done) ∧
        tangle.reviseAll [.addParent ⟨"p"⟩ ⟨"p"⟩, .addChild ⟨"p"⟩ ⟨"r"⟩, .addChild ⟨"p"⟩ ⟨"p"⟩] =
          (t', .ok .done)) ∧
      chain.Reachable ∧ chain.policy = .reject ∧
      ∃ parent child, (chain.reviseAll [.addParent ⟨"r"⟩ ⟨"p"⟩, .addChild ⟨"r"⟩ ⟨"p"⟩]).2 =
        .error (.cycle parent child) := by
  have hchain : chain.Reachable := (Reachable.ofSettings _).run _
  have hpolicy : chain.policy = .reject := by decide +kernel
  have hloops : Revision.Adds [.addParent ⟨"r"⟩ ⟨"p"⟩, .addChild ⟨"p"⟩ ⟨"p"⟩]
      [(⟨"r"⟩, ⟨"p"⟩), (⟨"p"⟩, ⟨"p"⟩)] := rfl
  have hloops' : Revision.Adds
      [.addParent ⟨"p"⟩ ⟨"p"⟩, .addChild ⟨"p"⟩ ⟨"r"⟩, .addChild ⟨"p"⟩ ⟨"p"⟩]
      [(⟨"p"⟩, ⟨"p"⟩), (⟨"r"⟩, ⟨"p"⟩), (⟨"p"⟩, ⟨"p"⟩)] := rfl
  have hback : Revision.Adds [.addParent ⟨"r"⟩ ⟨"p"⟩, .addChild ⟨"r"⟩ ⟨"p"⟩]
      [(⟨"r"⟩, ⟨"p"⟩), (⟨"p"⟩, ⟨"r"⟩)] := rfl
  have hcyclic : (chain.hierarchy.withEdges [(⟨"r"⟩, ⟨"p"⟩), (⟨"p"⟩, ⟨"r"⟩)]).Cyclic := by
    refine ⟨⟨"p"⟩, .tail (.single (b := ⟨"r"⟩) ?_) ?_⟩
    · exact Or.inl (by decide)
    · exact Or.inl (by decide)
  obtain ⟨hpermitted, -⟩ :=
    Reachable.additions_commute reachable_tangle hloops hloops' (by grind) (by decide)
  obtain ⟨-, hrejected⟩ :=
    Reachable.additions_commute hchain hback hback (fun _ => Iff.rfl) (by decide +kernel)
  obtain ⟨t', hfirst, hsecond, -⟩ := hpermitted (Or.inl rfl)
  obtain ⟨⟨edge, -, herror⟩, -⟩ := hrejected hpolicy hcyclic
  exact ⟨reachable_tangle, rfl, ⟨t', hfirst, hsecond⟩, hchain, hpolicy, edge.2, edge.1, herror⟩

end Taxonomy

end Subsumption
