import Subsumption.Formula.Evaluation
import Subsumption.Formula.OpenBranches
import Subsumption.Proofs.Branch.Containment
/-!
Exactness of the tableau under partial valuations: a valuation decides a formula
exactly when it contains a branch of its tableau for that sign, whatever the atoms
without a value are.
-/

namespace Subsumption.Formula

open Branch

/-- Both signs are treated at once, as negation and the biconditional ask for
the branches of the other sign. -/
theorem anyWithin_tableau (f : Formula) (v : Valuation) (sign : Bool) :
    AnyWithin (f.tableau sign) v ↔ f.eval v = some sign := by
  induction f generalizing sign with
  | atom a =>
    rw [tableau, anyWithin_singleton, within_singleton, eval_atom]
    rfl
  | neg f ih => rw [tableau, ih, eval_neg, Truth.not_eq_some]
  | conj fs ih =>
    rw [tableau, eval_conj]
    cases sign with
    | true =>
      rw [if_pos rfl, anyWithin_conjoin, Truth.all_eq_some_true]
      simp only [List.forall_mem_map]
      exact forall₂_congr fun f hf => ih f hf true
    | false =>
      rw [if_neg (by decide), anyWithin_flatMap, Truth.all_eq_some_false, List.mem_map]
      exact exists_congr fun f => and_congr_right fun hf => ih f hf false
  | disj fs ih =>
    rw [tableau, eval_disj]
    cases sign with
    | true =>
      rw [if_pos rfl, anyWithin_flatMap, Truth.any_eq_some_true, List.mem_map]
      exact exists_congr fun f => and_congr_right fun hf => ih f hf true
    | false =>
      rw [if_neg (by decide), anyWithin_conjoin, Truth.any_eq_some_false]
      simp only [List.forall_mem_map]
      exact forall₂_congr fun f hf => ih f hf false
  | imp f g ihf ihg =>
    rw [tableau, eval_imp]
    cases sign with
    | true => rw [if_pos rfl, anyWithin_append, ihf, ihg, Truth.imp_eq_some_true]
    | false => rw [if_neg (by decide), anyWithin_product, ihf, ihg, Truth.imp_eq_some_false]
  | iff f g ihf ihg =>
    rw [tableau, eval_iff, anyWithin_append, anyWithin_product, anyWithin_product, ihf, ihf,
      ihg, ihg, Truth.iff_eq_some]

/-- A branch of the tableau, read as a valuation, gives the formula the sign of
the tableau. -/
theorem eval_value_of_mem_tableau {f : Formula} {sign : Bool} {b : Branch}
    (hb : b ∈ f.tableau sign) : f.eval b.value = some sign := by
  rw [← anyWithin_tableau]
  exact ⟨b, hb, within_value b⟩

/-- The value of a formula is read off the branches that a valuation contains:
true for a branch, false for a negated branch, and undecided for neither. -/
theorem eval_iff_branch_within (f : Formula) (v : Valuation) :
    (f.eval v = some true ↔ ∃ b ∈ f.branches, b.Within v) ∧
      (f.eval v = some false ↔ ∃ b ∈ f.negatedBranches, b.Within v) ∧
      (f.eval v = none ↔
        (¬ ∃ b ∈ f.branches, b.Within v) ∧ ¬ ∃ b ∈ f.negatedBranches, b.Within v) ∧
      (∀ b ∈ f.branches, f.eval b.value = some true) ∧
      (∀ b ∈ f.negatedBranches, f.eval b.value = some false) := by
  have htrue : (∃ b ∈ f.branches, b.Within v) ↔ f.eval v = some true :=
    anyWithin_tableau f v true
  have hfalse : (∃ b ∈ f.negatedBranches, b.Within v) ↔ f.eval v = some false :=
    anyWithin_tableau f v false
  refine ⟨htrue.symm, hfalse.symm, ?_, ?_, ?_⟩
  · rw [htrue, hfalse]
    cases f.eval v with
    | none => simp
    | some value => cases value <;> simp
  · intro b hb
    exact eval_value_of_mem_tableau hb
  · intro b hb
    exact eval_value_of_mem_tableau hb

end Subsumption.Formula
