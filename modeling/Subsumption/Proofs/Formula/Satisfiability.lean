import Subsumption.Proofs.Formula.OpenTerms
import Subsumption.Proofs.Formula.StrongKleene
import Subsumption.Proofs.Formula.TableauExactness
/-!
Satisfiability by tableau.  An open branch is itself a valuation of the sign, and
every valuation extends to a total one that keeps what was decided, so total
valuations are enough.
-/

namespace Subsumption

namespace Valuation

/-- The valuation with `sign` given to every atom without a value. -/
def filled (v : Valuation) (sign : Bool) : Valuation := fun a => some ((v a).getD sign)

theorem total_filled (v : Valuation) (sign : Bool) : (v.filled sign).Total := fun _ => rfl

theorem filled_extends (v : Valuation) (sign : Bool) : (v.filled sign).Extends v := by
  intro a s ha
  rw [filled, ha]
  rfl

end Valuation

namespace Formula

variable {v : Valuation}

/-- The tableau for a sign closes exactly when the sign is never the value. -/
theorem tableau_eq_nil_iff (f : Formula) (sign : Bool) :
    f.tableau sign = [] ↔ ∀ v, f.eval v ≠ some sign := by
  rw [List.eq_nil_iff_forall_not_mem]
  constructor
  · intro hclosed v hv
    obtain ⟨b, hb, -⟩ := (anyWithin_tableau f v sign).2 hv
    exact hclosed b hb
  · intro hnever b hb
    exact hnever b.value (eval_value_of_mem_tableau hb)

/-- Total valuations suffice to see that a tableau closes. -/
theorem tableau_eq_nil_iff_total (f : Formula) (sign : Bool) :
    f.tableau sign = [] ↔ ∀ v : Valuation, v.Total → f.eval v ≠ some sign := by
  rw [tableau_eq_nil_iff]
  constructor
  · intro hnever v _
    exact hnever v
  · intro hnever v hv
    have hfilled := eval_eq_some_of_extends (v.filled_extends true) hv
    exact hnever (v.filled true) (v.total_filled true) hfilled

/-- A decided formula that is not false is true. -/
theorem eval_ne_some_false_iff (f : Formula) (hv : v.Total) :
    f.eval v ≠ some false ↔ f.eval v = some true := by
  obtain ⟨value, hvalue⟩ := Option.isSome_iff_exists.1 (isSome_eval_of_total f hv)
  rw [hvalue]
  cases value <;> simp

/-- The tableau of a formula closes exactly when the formula is unsatisfiable,
and exactly when every term of its normal form holds an atom together with its
negation.  The tableau of the negation closes exactly when the formula is
valid. -/
theorem branches_eq_nil_iff_unsatisfiable (f : Formula) :
    (f.branches = [] ↔ ∀ v : Valuation, v.Total → f.eval v ≠ some true) ∧
      (∃ ts, f.toDnf.terms? = some ts ∧ (f.branches = [] ↔ ∀ t ∈ ts, t.Closed)) ∧
      (f.negatedBranches = [] ↔ ∀ v : Valuation, v.Total → f.eval v = some true) := by
  refine ⟨tableau_eq_nil_iff_total f true, ?_, ?_⟩
  · refine ⟨f.terms true, ?_, ?_⟩
    · rw [toDnf_eq_ofTerms, terms?_ofTerms]
    · rw [branches, tableau_eq_openBranches, Dnf.openBranches_eq_nil_iff]
  · rw [negatedBranches, tableau_eq_nil_iff_total]
    exact forall₂_congr fun v hv => eval_ne_some_false_iff f hv

end Formula

end Subsumption
