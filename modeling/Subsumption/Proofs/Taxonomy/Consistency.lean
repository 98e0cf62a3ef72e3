import Subsumption.Proofs.Taxonomy.Change
/-!
Consistency of reachable taxonomies.

Every edge is recorded at its child and at its parent, and a change has to keep
the two records in step.  Each of the four changes does, on any consistent
taxonomy, so every reachable taxonomy is consistent.
-/

namespace Subsumption

namespace Taxonomy

variable {t t' : Taxonomy}

theorem consistent_empty (policy : CyclePolicy) : Consistent { policy } := by
  have hchildren (a b : Atom) : b ∉ ({ policy } : Taxonomy).children a := by
    intro h
    exact Std.ExtTreeMap.not_mem_empty (mem_of_mem_children h)
  have hparents (a b : Atom) : b ∉ ({ policy } : Taxonomy).parents a := by
    intro h
    exact Std.ExtTreeMap.not_mem_empty (mem_of_mem_parents h)
  constructor
  · intro a b h
    exact absurd h (hchildren a b)
  · intro a b h
    exact absurd h (hparents a b)
  · intro a b
    exact iff_of_false (hchildren a b) (hparents b a)

/-- A consistent taxonomy is one whose two records of each edge agree, as an
atom with a record is an element. -/
theorem consistent_of_child_iff_parent (h : ∀ a b, b ∈ t.children a ↔ a ∈ t.parents b) :
    t.Consistent where
  mem_of_child a b hb := mem_of_mem_parents ((h a b).1 hb)
  mem_of_parent a b hb := mem_of_mem_children ((h b a).2 hb)
  child_iff_parent := h

namespace Consistent

theorem addElement (h : t.Consistent) (a : Atom) : (t.addElement a).Consistent := by
  apply consistent_of_child_iff_parent
  intro b c
  rw [children_addElement, parents_addElement]
  exact h.child_iff_parent b c

theorem link (h : t.Consistent) {parent child : Atom} (hparent : parent ∈ t) (hchild : child ∈ t) :
    (t.link parent child).Consistent := by
  apply consistent_of_child_iff_parent
  intro a b
  rw [mem_children_link hparent, mem_parents_link hchild, h.child_iff_parent]

theorem unlink (h : t.Consistent) (parent child : Atom) : (t.unlink parent child).Consistent := by
  apply consistent_of_child_iff_parent
  intro a b
  rw [mem_children_unlink, mem_parents_unlink, h.child_iff_parent]

/-- The neighbours that are visited are all that have the removed atom on
record, as its own record names every one of them. -/
theorem removeElement (h : t.Consistent) {a : Atom} {e : Element}
    (hremove : t.removeElement a = .ok (e, t')) : t'.Consistent := by
  apply consistent_of_child_iff_parent
  intro b c
  rw [mem_children_removeElement hremove, mem_parents_removeElement hremove,
    h.child_iff_parent b c, ← h.child_iff_parent b a, h.child_iff_parent a c]
  -- An edge from `a` to itself shows in both conditions, and is gone with the record of `a`.
  constructor
  · rintro ⟨hb, hbc, hvisited⟩
    refine ⟨?_, hbc, ?_⟩
    · rintro rfl
      exact hvisited ⟨rfl, (h.child_iff_parent b c).2 hbc⟩
    · rintro ⟨rfl, -⟩
      exact hb rfl
  · rintro ⟨hc, hbc, hvisited⟩
    refine ⟨?_, hbc, ?_⟩
    · rintro rfl
      exact hvisited ⟨rfl, hbc⟩
    · rintro ⟨rfl, -⟩
      exact hc rfl

theorem change (hchange : Change t t') (h : t.Consistent) : t'.Consistent := by
  cases hchange with
  | addElement a => exact h.addElement a
  | removeElement hremove => exact h.removeElement hremove
  | addEdge hadd =>
    obtain ⟨hparent, hchild, -, rfl⟩ := addEdge_eq_ok_iff.1 hadd
    exact h.link hparent hchild
  | removeEdge hremove =>
    obtain ⟨-, -, rfl⟩ := removeEdge_eq_ok_iff.1 hremove
    exact h.unlink _ _

theorem changes (hchanges : Changes t t') (h : t.Consistent) : t'.Consistent := by
  induction hchanges with
  | refl => exact h
  | tail _ hchange ih => exact ih.change hchange

/-- Changes lead from a taxonomy without elements to every reachable one. -/
theorem of_reachable (h : t.Reachable) : t.Consistent := by
  obtain ⟨policy, hchanges⟩ := h.exists_changes
  exact (consistent_empty policy).changes hchanges

end Consistent

/-- Every neighbour of an element of a reachable taxonomy is an element, and
every edge is recorded at both of its ends. -/
theorem Reachable.consistent (h : t.Reachable) : t.Consistent :=
  h.invariant consistent_empty fun _ _ => Consistent.change

/-- An addition that stops at an unknown atom after adding two edges, and the
removal of an element that is its own parent and lies on a longer cycle. -/
def loopRevisions : List Revision :=
  [.addElements [⟨"p"⟩, ⟨"q"⟩, ⟨"r"⟩], .addChild ⟨"q"⟩ ⟨"q"⟩,
    .addParents ⟨"p"⟩ [⟨"q"⟩, ⟨"r"⟩, ⟨"s"⟩], .addParent ⟨"q"⟩ ⟨"p"⟩, .removeElement ⟨"q"⟩]

theorem consistent_run_loopRevisions :
    (run ∅ loopRevisions).Reachable ∧ (run ∅ loopRevisions).Consistent ∧
      (run ∅ loopRevisions).parents ⟨"p"⟩ = {⟨"r"⟩} := by
  have hreachable : (run ∅ loopRevisions).Reachable := (Reachable.ofSettings {}).run loopRevisions
  refine ⟨hreachable, Reachable.consistent hreachable, ?_⟩
  decide

/-- The taxonomy before that removal: two elements below each other, one of them
below itself as well, and a third above them. -/
def tangle : Taxonomy := run ∅ loopRevisions.dropLast

theorem reachable_tangle : tangle.Reachable := (Reachable.ofSettings {}).run _

end Taxonomy

end Subsumption
