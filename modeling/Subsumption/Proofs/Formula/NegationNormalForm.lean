import Subsumption.Proofs.Formula.OpenTerms
import Subsumption.Proofs.Formula.Rewriting
/-!
Pushing negations to the atoms first.  Expanding the negation normal form needs no
negative pass, and gives the terms of the formula in the same order and as often.
-/

namespace Subsumption

namespace Formula

theorem sizeOf_pos (f : Formula) : 0 < sizeOf f := by
  cases f <;> simp only [atom.sizeOf_spec, neg.sizeOf_spec, conj.sizeOf_spec, disj.sizeOf_spec,
    imp.sizeOf_spec, iff.sizeOf_spec] <;> omega

/-- The formula with conjunctions and disjunctions over literals only.  A negated
biconditional has a rule of its own, as negating the two conjunctions that stand
for a biconditional gives other terms. -/
def nnf : Formula → Formula
  | atom a => atom a
  | neg (atom a) => neg (atom a)
  | neg (neg f) => f.nnf
  | neg (conj fs) => disj (fs.map fun f => (neg f).nnf)
  | neg (disj fs) => conj (fs.map fun f => (neg f).nnf)
  | neg (imp f g) => conj [f.nnf, (neg g).nnf]
  | neg (iff f g) => disj [conj [f.nnf, (neg g).nnf], conj [(neg f).nnf, g.nnf]]
  | conj fs => conj (fs.map nnf)
  | disj fs => disj (fs.map nnf)
  | imp f g => disj [(neg f).nnf, g.nnf]
  | iff f g => disj [conj [f.nnf, g.nnf], conj [(neg f).nnf, (neg g).nnf]]
termination_by f => sizeOf f
decreasing_by
  all_goals simp only [neg.sizeOf_spec, conj.sizeOf_spec, disj.sizeOf_spec, imp.sizeOf_spec,
    iff.sizeOf_spec]
  all_goals try have := List.sizeOf_lt_of_mem ‹_›
  all_goals try have := sizeOf_pos f
  all_goals try have := sizeOf_pos g
  all_goals omega

/-- Conjunctions and disjunctions over literals. -/
inductive NegationNormal : Formula → Prop
  | literal (l : Literal) : NegationNormal (ofLiteral l)
  | conj {fs : List Formula} : (∀ f ∈ fs, NegationNormal f) → NegationNormal (.conj fs)
  | disj {fs : List Formula} : (∀ f ∈ fs, NegationNormal f) → NegationNormal (.disj fs)

theorem NegationNormal.conj_pair {f g : Formula} (hf : f.NegationNormal) (hg : g.NegationNormal) :
    NegationNormal (.conj [f, g]) := .conj (by simp [hf, hg])

theorem NegationNormal.disj_pair {f g : Formula} (hf : f.NegationNormal) (hg : g.NegationNormal) :
    NegationNormal (.disj [f, g]) := .disj (by simp [hf, hg])

theorem negationNormal_nnf (f : Formula) : f.nnf.NegationNormal := by
  fun_induction nnf f with
  | case1 a => exact .literal ⟨a, true⟩
  | case2 a => exact .literal ⟨a, false⟩
  | case3 f ih => exact ih
  | case4 fs ih => exact .disj (List.forall_mem_map.2 ih)
  | case5 fs ih => exact .conj (List.forall_mem_map.2 ih)
  | case6 f g ihf ihg => exact .conj_pair ihf ihg
  | case7 f g ihf ihg' ihf' ihg => exact .disj_pair (.conj_pair ihf ihg') (.conj_pair ihf' ihg)
  | case8 fs ih => exact .conj (List.forall_mem_map.2 ih)
  | case9 fs ih => exact .disj (List.forall_mem_map.2 ih)
  | case10 f g ihf ihg => exact .disj_pair ihf ihg
  | case11 f g ihf ihg ihf' ihg' => exact .disj_pair (.conj_pair ihf ihg) (.conj_pair ihf' ihg')

theorem terms_neg (f : Formula) (sign : Bool) : (neg f).terms sign = f.terms !sign := by
  rw [terms]

theorem terms_conj_pair (f g : Formula) :
    (conj [f, g]).terms true = Dnf.product (f.terms true) (g.terms true) := by
  simp [terms_conj, Dnf.product]

theorem terms_disj_pair (f g : Formula) :
    (disj [f, g]).terms true = f.terms true ++ g.terms true := by
  simp [terms_disj]

variable {rewrite : Formula → Formula} {fs : List Formula} {sign : Bool}

theorem terms_conj_map (h : ∀ f ∈ fs, (rewrite f).terms true = f.terms sign) :
    (conj (fs.map rewrite)).terms true = (fs.map (terms sign)).foldr Dnf.product [[]] := by
  rw [terms_conj, if_pos rfl, List.map_map]
  congr 1
  exact List.map_congr_left h

theorem terms_disj_map (h : ∀ f ∈ fs, (rewrite f).terms true = f.terms sign) :
    (disj (fs.map rewrite)).terms true = fs.flatMap (terms sign) := by
  rw [terms_disj, if_pos rfl, List.flatMap_map]
  exact List.flatMap_congr h

/-- One positive pass over the negation normal form finds the terms of the
formula. -/
theorem terms_nnf (f : Formula) : f.nnf.terms true = f.terms true := by
  fun_induction nnf f with
  | case1 a => rfl
  | case2 a => rfl
  | case3 f ih => rw [ih, terms_neg, terms_neg, Bool.not_true, Bool.not_false]
  | case4 fs ih =>
    have hoperands : ∀ f ∈ fs, (neg f).nnf.terms true = f.terms false := fun f hf => by
      rw [ih f hf, terms_neg, Bool.not_true]
    rw [terms_disj_map hoperands, terms_neg, terms_conj, Bool.not_true, if_neg (by decide)]
  | case5 fs ih =>
    have hoperands : ∀ f ∈ fs, (neg f).nnf.terms true = f.terms false := fun f hf => by
      rw [ih f hf, terms_neg, Bool.not_true]
    rw [terms_conj_map hoperands, terms_neg, terms_disj, Bool.not_true, if_neg (by decide)]
  | case6 f g ihf ihg =>
    rw [terms_conj_pair, ihf, ihg, terms_neg, terms_neg, terms, Dnf.conjoin_pair]
    rfl
  | case7 f g ihf ihg' ihf' ihg =>
    rw [terms_disj_pair, terms_conj_pair, terms_conj_pair, ihf, ihg', ihf', ihg, terms_neg,
      terms_neg, terms_neg, terms, Dnf.conjoin_pair, Dnf.conjoin_pair]
    rfl
  | case8 fs ih => rw [terms_conj_map ih, terms_conj, if_pos rfl]
  | case9 fs ih => rw [terms_disj_map ih, terms_disj, if_pos rfl]
  | case10 f g ihf ihg =>
    rw [terms_disj_pair, ihf, ihg, terms_neg, terms]
    rfl
  | case11 f g ihf ihg ihf' ihg' =>
    rw [terms_disj_pair, terms_conj_pair, terms_conj_pair, ihf, ihg, ihf', ihg', terms_neg,
      terms_neg, terms, Dnf.conjoin_pair, Dnf.conjoin_pair]
    rfl

/-- Both normal forms and both tableaux are found by pushing negations to the
atoms first: those of the negation from the negation normal form of the negated
formula. -/
theorem forms_nnf (f : Formula) :
    f.nnf.NegationNormal ∧ f.nnf.toDnf = f.toDnf ∧ f.negatedDnf = (neg f).nnf.toDnf ∧
      f.nnf.branches = f.branches ∧ (neg f).nnf.branches = f.negatedBranches := by
  have hnegated : (neg f).nnf.terms true = f.terms false := by
    rw [terms_nnf, terms_neg, Bool.not_true]
  exact ⟨negationNormal_nnf f, dnf_congr (terms_nnf f), dnf_congr hnegated.symm,
    tableau_congr (terms_nnf f), tableau_congr hnegated⟩

end Formula

end Subsumption
