import Mathlib.Data.Set.Insert
import Subsumption.Proofs.Taxonomy.Closure
/-!
A taxonomy as a plain directed graph, in which nothing is recorded twice and nothing
is searched.  The graph is changed in four ways, and the changes of a taxonomy are
these changes of its graph.
-/

namespace Subsumption

open Relation

/-- A directed graph of atoms.  An edge is a pair of a child and a parent. -/
@[ext]
structure Hierarchy where
  vertices : Set Atom
  edges : Set (Atom × Atom)

namespace Hierarchy

/-- A change of one vertex or of one edge. -/
inductive Step where
  | addVertex (a : Atom)
  | removeVertex (a : Atom)
  | addEdge (parent child : Atom)
  | removeEdge (parent child : Atom)

def Edge (g : Hierarchy) (child parent : Atom) : Prop := (child, parent) ∈ g.edges

/-- Some vertex can be reached from itself along one edge or more. -/
def Cyclic (g : Hierarchy) : Prop := ∃ a, TransGen g.Edge a a

/-- The child is the parent, or can be reached from it along the edges. -/
def ClosesCycle (g : Hierarchy) (parent child : Atom) : Prop := ReflTransGen g.Edge parent child

/-- The graph after a step.  A vertex takes its edges with it. -/
def after (g : Hierarchy) : Step → Hierarchy
  | .addVertex a => { g with vertices := insert a g.vertices }
  | .removeVertex a =>
    { vertices := g.vertices \ {a}
      edges := {edge | edge ∈ g.edges ∧ edge.1 ≠ a ∧ edge.2 ≠ a} }
  | .addEdge parent child => { g with edges := insert (child, parent) g.edges }
  | .removeEdge parent child => { g with edges := g.edges \ {(child, parent)} }

/-- The errors with which steps are refused.  A new edge is refused for its
parent before its child, and an edge is not removed for its child before its
parent. -/
inductive Refuses (policy : CyclePolicy) (g : Hierarchy) : Step → TaxonomyError → Prop
  | removeVertex {a : Atom} : a ∉ g.vertices → Refuses policy g (.removeVertex a) (.notFound a)
  | addEdge_parent {parent child : Atom} : parent ∉ g.vertices →
      Refuses policy g (.addEdge parent child) (.notFound parent)
  | addEdge_child {parent child : Atom} : parent ∈ g.vertices → child ∉ g.vertices →
      Refuses policy g (.addEdge parent child) (.notFound child)
  | addEdge_cycle {parent child : Atom} : parent ∈ g.vertices → child ∈ g.vertices →
      policy = .reject → g.ClosesCycle parent child →
      Refuses policy g (.addEdge parent child) (.cycle parent child)
  | removeEdge_child {parent child : Atom} : child ∉ g.vertices →
      Refuses policy g (.removeEdge parent child) (.notFound child)
  | removeEdge_parent {parent child : Atom} : child ∈ g.vertices → parent ∉ g.vertices →
      Refuses policy g (.removeEdge parent child) (.notFound parent)
  | removeEdge_edge {parent child : Atom} : child ∈ g.vertices → parent ∈ g.vertices →
      ¬ g.Edge child parent →
      Refuses policy g (.removeEdge parent child) (.edgeNotFound parent child)

end Hierarchy

namespace Taxonomy

variable {t t' : Taxonomy} {a b c parent child : Atom} {e : Element} {x : TaxonomyError}

/-- The elements of the taxonomy with its edges from child to parent. -/
def hierarchy (t : Taxonomy) : Hierarchy where
  vertices := {a | a ∈ t}
  edges := {edge | t.Edge edge.1 edge.2}

theorem edge_addElement : (t.addElement a).Edge b c ↔ t.Edge b c := by
  rw [Edge, parents_addElement]
  rfl

theorem edge_link (hchild : child ∈ t) :
    (t.link parent child).Edge b c ↔ (b = child ∧ c = parent) ∨ t.Edge b c := by
  rw [Edge, mem_parents_link hchild, and_comm]
  rfl

theorem edge_unlink :
    (t.unlink parent child).Edge b c ↔ t.Edge b c ∧ ¬ (b = child ∧ c = parent) := by
  rw [Edge, mem_parents_unlink, and_comm (a := c = parent)]
  rfl

/-- The edges of an element that is removed go with it, and no others do. -/
theorem Consistent.edge_removeElement (h : t.Consistent)
    (hremove : t.removeElement a = .ok (e, t')) :
    t'.Edge b c ↔ t.Edge b c ∧ b ≠ a ∧ c ≠ a := by
  rw [Edge, mem_parents_removeElement hremove, h.child_iff_parent]
  constructor
  · rintro ⟨hb, hedge, hvisited⟩
    refine ⟨hedge, hb, ?_⟩
    rintro rfl
    exact hvisited ⟨rfl, hedge⟩
  · rintro ⟨hedge, hb, hc⟩
    exact ⟨hb, hedge, fun hvisited => hc hvisited.1⟩

theorem hierarchy_addElement : (t.addElement a).hierarchy = t.hierarchy.after (.addVertex a) := by
  apply Hierarchy.ext
  · ext b
    change b ∈ t.addElement a ↔ b = a ∨ b ∈ t
    rw [mem_addElement, eq_comm]
  · ext edge
    exact edge_addElement

theorem hierarchy_link (hchild : child ∈ t) :
    (t.link parent child).hierarchy = t.hierarchy.after (.addEdge parent child) := by
  apply Hierarchy.ext
  · ext b
    exact mem_link
  · ext ⟨b, c⟩
    change (t.link parent child).Edge b c ↔ (b, c) = (child, parent) ∨ t.Edge b c
    rw [edge_link hchild, Prod.mk.injEq]

theorem hierarchy_unlink :
    (t.unlink parent child).hierarchy = t.hierarchy.after (.removeEdge parent child) := by
  apply Hierarchy.ext
  · ext b
    exact mem_unlink
  · ext ⟨b, c⟩
    change (t.unlink parent child).Edge b c ↔ t.Edge b c ∧ (b, c) ≠ (child, parent)
    rw [edge_unlink, Ne, Prod.mk.injEq]

theorem Consistent.hierarchy_removeElement (h : t.Consistent)
    (hremove : t.removeElement a = .ok (e, t')) :
    t'.hierarchy = t.hierarchy.after (.removeVertex a) := by
  apply Hierarchy.ext
  · ext b
    change b ∈ t' ↔ b ∈ t ∧ b ≠ a
    rw [mem_removeElement hremove, and_comm]
  · ext edge
    exact h.edge_removeElement hremove

/-- A result that has the error of each refusal, and succeeds where there is
none, has no other errors. -/
theorem eq_error_iff_refuses {α : Type} {policy : CyclePolicy} {g : Hierarchy}
    {s : Hierarchy.Step} {result : Except TaxonomyError α}
    (hrefused : ∀ y, g.Refuses policy s y → result = .error y)
    (hallowed : (∀ y, ¬ g.Refuses policy s y) → ∃ r, result = .ok r) :
    result = .error x ↔ g.Refuses policy s x := by
  constructor
  · intro herror
    have hsome : ∃ y, g.Refuses policy s y := by
      by_contra hnone
      obtain ⟨r, hr⟩ := hallowed (not_exists.1 hnone)
      rw [hr] at herror
      cases herror
    obtain ⟨y, hy⟩ := hsome
    rw [hrefused y hy] at herror
    cases herror
    exact hy
  · exact hrefused x

theorem removeElement_eq_error_iff :
    t.removeElement a = .error x ↔ t.hierarchy.Refuses t.policy (.removeVertex a) x := by
  apply eq_error_iff_refuses
  · intro y hrefuses
    cases hrefuses with
    | removeVertex ha =>
      rw [removeElement, element_eq_error_iff.2 ⟨ha, rfl⟩]
      rfl
  · intro hallowed
    have ha : a ∈ t := by
      by_contra ha
      exact hallowed _ (.removeVertex ha)
    obtain ⟨e, he⟩ := mem_iff.1 ha
    exact ⟨_, removeElement_eq_ok_iff.2 ⟨he, rfl⟩⟩

namespace Consistent

/-- Adding an edge is refused for its parent, then for its child, and then for
the cycle that it would close. -/
theorem addEdge_eq_error_iff (h : t.Consistent) :
    t.addEdge parent child = .error x ↔
      t.hierarchy.Refuses t.policy (.addEdge parent child) x := by
  apply eq_error_iff_refuses
  · intro y hrefuses
    cases hrefuses with
    | addEdge_parent hparent =>
      rw [addEdge, element_eq_error_iff.2 ⟨hparent, rfl⟩]
      rfl
    | addEdge_child hparent hchild =>
      obtain ⟨e, he⟩ := mem_iff.1 hparent
      rw [addEdge, element_eq_ok_iff.2 he, element_eq_error_iff.2 ⟨hchild, rfl⟩]
      rfl
    | addEdge_cycle hparent hchild hpolicy hcloses =>
      obtain ⟨e, he⟩ := mem_iff.1 hparent
      obtain ⟨e', he'⟩ := mem_iff.1 hchild
      obtain ⟨closes, hrun, hiff⟩ := h.exists_closesCycle child hparent
      rw [hiff.2 hcloses] at hrun
      rw [addEdge, element_eq_ok_iff.2 he, element_eq_ok_iff.2 he', hrun]
      simp [hpolicy, bind, Except.bind, throw, throwThe, MonadExceptOf.throw]
  · intro hallowed
    have hparent : parent ∈ t := by
      by_contra hparent
      exact hallowed _ (.addEdge_parent hparent)
    have hchild : child ∈ t := by
      by_contra hchild
      exact hallowed _ (.addEdge_child hparent hchild)
    have hopen : t.policy = .reject → t.closesCycle parent child = .ok false := by
      intro hpolicy
      obtain ⟨closes, hrun, hiff⟩ := h.exists_closesCycle child hparent
      cases closes with
      | false => exact hrun
      | true => exact absurd (.addEdge_cycle hparent hchild hpolicy (hiff.1 rfl)) (hallowed _)
    exact ⟨_, addEdge_eq_ok_iff.2 ⟨hparent, hchild, hopen, rfl⟩⟩

/-- Removing an edge is refused for its child, then for its parent, and then
when there is no such edge. -/
theorem removeEdge_eq_error_iff (h : t.Consistent) :
    t.removeEdge parent child = .error x ↔
      t.hierarchy.Refuses t.policy (.removeEdge parent child) x := by
  apply eq_error_iff_refuses
  · intro y hrefuses
    cases hrefuses with
    | removeEdge_child hchild =>
      rw [removeEdge, element_eq_error_iff.2 ⟨hchild, rfl⟩]
      rfl
    | removeEdge_parent hchild hparent =>
      obtain ⟨e, he⟩ := mem_iff.1 hchild
      rw [removeEdge, element_eq_ok_iff.2 he, element_eq_error_iff.2 ⟨hparent, rfl⟩]
      rfl
    | removeEdge_edge hchild hparent hedge =>
      obtain ⟨e, he⟩ := mem_iff.1 hchild
      obtain ⟨e', he'⟩ := mem_iff.1 hparent
      have hnone : child ∉ e'.children := by
        rw [← adjacent_iff he']
        intro hrecorded
        exact hedge ((h.child_iff_parent parent child).1 hrecorded)
      rw [removeEdge, element_eq_ok_iff.2 he, element_eq_ok_iff.2 he']
      simp [hnone, bind, Except.bind, throw, throwThe, MonadExceptOf.throw]
  · intro hallowed
    have hchild : child ∈ t := by
      by_contra hchild
      exact hallowed _ (.removeEdge_child hchild)
    have hparent : parent ∈ t := by
      by_contra hparent
      exact hallowed _ (.removeEdge_parent hchild hparent)
    have hedge : t.Edge child parent := by
      by_contra hedge
      exact hallowed _ (.removeEdge_edge hchild hparent hedge)
    have hrecorded : child ∈ t.children parent := (h.child_iff_parent parent child).2 hedge
    exact ⟨_, removeEdge_eq_ok_iff.2 ⟨hchild, hrecorded, rfl⟩⟩

end Consistent

end Taxonomy

end Subsumption
