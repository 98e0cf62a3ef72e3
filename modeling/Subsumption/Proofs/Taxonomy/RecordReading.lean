import Subsumption.Proofs.Taxonomy.Acyclicity
/-!
Which records are read: those whose elements are a consistent taxonomy, without a
cycle where the policy rejects cycles.  An error is true of the record.
-/

namespace Subsumption

open Relation

namespace Record

variable {r : Record} {t : Taxonomy}

/-- Without a defect a record is read unless it has a cycle and cycles are
rejected. -/
theorem toTaxonomy_eq_ok (h : r.unchecked.Consistent)
    (hacyclic : r.policy = .reject → ¬ r.unchecked.hierarchy.Cyclic) :
    r.toTaxonomy = .ok r.unchecked := by
  rcases toTaxonomy_cases h with hok | ⟨hpolicy, parent, child, hedge, hpath, -⟩
  · exact hok
  · exact absurd ⟨child, .head' hedge hpath⟩ (hacyclic hpolicy)

/-- A record that is read has no cycle where cycles are rejected, as every edge
was added against those before it. -/
theorem not_cyclic_of_toTaxonomy_eq_ok (h : r.toTaxonomy = .ok t) (hpolicy : r.policy = .reject) :
    ¬ r.unchecked.hierarchy.Cyclic := by
  obtain ⟨rfl, -⟩ := eq_unchecked_of_toTaxonomy_eq_ok h
  exact Taxonomy.not_cyclic_of_changes_empty (Taxonomy.changes_of_toTaxonomy_eq_ok h) hpolicy

/-- A record is read exactly when every neighbour of an element is an element,
every edge is noted at both ends and, where cycles are rejected, no edges form
a cycle.  It is read as it is recorded, and otherwise the error is true of it. -/
theorem toTaxonomy_exact (r : Record) :
    ((∃ t, r.toTaxonomy = .ok t) ↔
        r.unchecked.Consistent ∧
          (r.policy = .reject → ∀ a, ¬ TransGen r.unchecked.Edge a a)) ∧
      (∀ t, r.toTaxonomy = .ok t → t.elements = r.elements ∧ t.policy = r.policy) ∧
      (∀ x, r.toTaxonomy = .error x → r.Fault x) := by
  refine ⟨⟨?_, ?_⟩, ?_, ?_⟩
  · rintro ⟨t, hok⟩
    refine ⟨(eq_unchecked_of_toTaxonomy_eq_ok hok).2, ?_⟩
    intro hpolicy a hcycle
    exact not_cyclic_of_toTaxonomy_eq_ok hok hpolicy ⟨a, hcycle⟩
  · rintro ⟨hconsistent, hacyclic⟩
    refine ⟨_, toTaxonomy_eq_ok hconsistent ?_⟩
    rintro hpolicy ⟨a, hcycle⟩
    exact hacyclic hpolicy a hcycle
  · intro t hok
    obtain ⟨rfl, -⟩ := eq_unchecked_of_toTaxonomy_eq_ok hok
    exact ⟨rfl, rfl⟩
  · intro x herror
    exact fault_of_toTaxonomy_eq_error herror

end Record

/-- The record of a reachable taxonomy is read, and gives the taxonomy back. -/
theorem Taxonomy.Reachable.toTaxonomy_record {t : Taxonomy} (h : t.Reachable) :
    t.record.toTaxonomy = .ok t :=
  Record.toTaxonomy_eq_ok (r := t.record) (.of_reachable h) h.not_cyclic

end Subsumption
