import Subsumption.Formula.Evaluation
import Subsumption.Proofs.Formula.CanonicalDnf
/-!
The value of a disjunctive normal form under partial valuations.  Strong Kleene logic
is a distributive lattice with De Morgan's laws, so expansion keeps the value of a
formula even where it is undecided.
-/

namespace Subsumption

/-- The strong Kleene value of the conjunction of the literals. -/
def Term.eval (v : Valuation) (t : Term) : Truth :=
  Truth.all (t.map fun l => (Formula.ofLiteral l).eval v)

/-- The strong Kleene value of the disjunction of the terms. -/
def Dnf.eval (v : Valuation) (ts : Dnf) : Truth := Truth.any (ts.map (Term.eval v))

/-- The truth value when the sign is true, and its negation otherwise. -/
def Truth.signed (sign : Bool) (a : Truth) : Truth := if sign then a else a.not

theorem Truth.signed_not (sign : Bool) (a : Truth) : a.signed (!sign) = a.not.signed sign := by
  cases sign with
  | true => rfl
  | false => exact (Truth.not_not a).symm

theorem Term.eval_append (v : Valuation) (s t : Term) :
    Term.eval v (s ++ t) = (Term.eval v s).and (Term.eval v t) := by
  rw [Term.eval, List.map_append, Truth.all_append]
  rfl

namespace Dnf

variable (v : Valuation)

theorem eval_singleton (t : Term) : Dnf.eval v [t] = Term.eval v t :=
  Truth.or_some_false _

theorem eval_append (left right : Dnf) :
    Dnf.eval v (left ++ right) = (Dnf.eval v left).or (Dnf.eval v right) := by
  rw [Dnf.eval, List.map_append, Truth.any_append]
  rfl

theorem eval_flatMap {α : Type} (f : α → Dnf) (items : List α) :
    Dnf.eval v (items.flatMap f) = Truth.any (items.map fun x => Dnf.eval v (f x)) := by
  rw [Dnf.eval, List.map_flatMap, Truth.any_flatMap]
  rfl

/-- Putting one term in front of every term of a list is a conjunction. -/
theorem eval_map_append (s : Term) (right : Dnf) :
    Dnf.eval v (right.map fun t => s ++ t) = (Term.eval v s).and (Dnf.eval v right) := by
  calc Dnf.eval v (right.map fun t => s ++ t)
      = Truth.any (right.map fun t => (Term.eval v s).and (Term.eval v t)) := by
        simp only [Dnf.eval, List.map_map, Function.comp_def, Term.eval_append]
    _ = (Term.eval v s).and (Dnf.eval v right) := Truth.any_map_and _ _ _

theorem eval_product (left right : Dnf) :
    Dnf.eval v (product left right) = (Dnf.eval v left).and (Dnf.eval v right) := by
  induction left with
  | nil => exact (Truth.some_false_and _).symm
  | cons s left ih =>
    have hcons : product (s :: left) right = right.map (fun t => s ++ t) ++ product left right :=
      List.flatMap_cons
    have hsplit : Dnf.eval v (s :: left) = (Term.eval v s).or (Dnf.eval v left) := rfl
    rw [hcons, eval_append, eval_map_append, ih, hsplit, Truth.and_or_distrib_right]

theorem eval_conjoinFrom (found : Dnf) (dnfs : List (Thunk Dnf)) :
    Dnf.eval v (conjoinFrom found dnfs) =
      (Dnf.eval v found).and (Truth.all (dnfs.map fun d => Dnf.eval v d.get)) := by
  rw [conjoinFrom_eq_foldl]
  induction dnfs generalizing found with
  | nil => exact (Truth.and_some_true _).symm
  | cons d dnfs ih =>
    rw [List.foldl_cons, ih, eval_product, List.map_cons, Truth.all_cons, Truth.and_assoc]

theorem eval_conjoin (dnfs : List (Thunk Dnf)) :
    Dnf.eval v (conjoin dnfs) = Truth.all (dnfs.map fun d => Dnf.eval v d.get) := by
  rw [conjoin, eval_conjoinFrom]
  exact Truth.some_true_and _

end Dnf

namespace Formula

theorem eval_ofTerm (v : Valuation) (t : Term) : (ofTerm t).eval v = Term.eval v t := by
  rcases ofTerm_cases t with ⟨l, rfl, hl⟩ | ⟨-, hconj⟩
  · rw [hl]
    exact (Truth.and_some_true _).symm
  · rw [hconj, eval_conj, List.map_map]
    rfl

theorem eval_ofTerms (v : Valuation) (ts : Dnf) : (ofTerms ts).eval v = Dnf.eval v ts := by
  rcases ofTerms_cases ts with ⟨t, rfl, ht⟩ | ⟨-, hdisj⟩
  · rw [ht, eval_ofTerm, Dnf.eval_singleton]
  · rw [hdisj, eval_disj, List.map_map, Dnf.eval]
    congr 1
    exact List.map_congr_left fun t _ => eval_ofTerm v t

theorem eval_ofLiteral (v : Valuation) (a : Atom) (sign : Bool) :
    (ofLiteral ⟨a, sign⟩).eval v = (v a).signed sign := by
  cases sign <;> simp [ofLiteral, Truth.signed]

/-- The terms for a sign have the value of the formula with that sign.  Both
signs are treated at once, as an expansion asks for the terms of the other. -/
theorem eval_terms (v : Valuation) (f : Formula) (sign : Bool) :
    Dnf.eval v (f.terms sign) = (f.eval v).signed sign := by
  induction f generalizing sign with
  | atom a =>
    have hliteral : Term.eval v [⟨a, sign⟩] = (ofLiteral ⟨a, sign⟩).eval v :=
      Truth.and_some_true _
    rw [terms, Dnf.eval_singleton, hliteral, eval_ofLiteral, eval_atom]
  | neg f ih => rw [terms, ih, eval_neg, Truth.signed_not]
  | conj fs ih =>
    rw [terms, eval_conj]
    cases sign with
    | true =>
      rw [if_pos rfl, Dnf.eval_conjoin, List.map_map]
      congr 1
      exact List.map_congr_left fun f hf => ih f hf true
    | false =>
      rw [if_neg (by decide), Dnf.eval_flatMap]
      change _ = (Truth.all _).not
      rw [Truth.not_all, List.map_map]
      congr 1
      exact List.map_congr_left fun f hf => ih f hf false
  | disj fs ih =>
    rw [terms, eval_disj]
    cases sign with
    | true =>
      rw [if_pos rfl, Dnf.eval_flatMap]
      congr 1
      exact List.map_congr_left fun f hf => ih f hf true
    | false =>
      rw [if_neg (by decide), Dnf.eval_conjoin, List.map_map]
      change _ = (Truth.any _).not
      rw [Truth.not_any, List.map_map]
      congr 1
      exact List.map_congr_left fun f hf => ih f hf false
  | imp f g ihf ihg =>
    rw [terms, eval_imp, Truth.imp_eq_or]
    cases sign with
    | true =>
      rw [if_pos rfl, Dnf.eval_append, ihf, ihg]
      rfl
    | false =>
      rw [if_neg (by decide), Dnf.conjoin_pair, Dnf.eval_product, ihf, ihg]
      change _ = ((f.eval v).not.or (g.eval v)).not
      rw [Truth.not_or, Truth.not_not]
      rfl
  | iff f g ihf ihg =>
    rw [terms, Dnf.conjoin_pair, Dnf.conjoin_pair, Dnf.eval_append, Dnf.eval_product,
      Dnf.eval_product, ihf, ihf, ihg, ihg, eval_iff]
    cases sign with
    | true => exact (Truth.iff_eq_or _ _).symm
    | false =>
      change _ = ((f.eval v).iff (g.eval v)).not
      rw [Truth.not_iff, Truth.iff_eq_or, Truth.not_not]
      rfl

/-- Both normal forms are canonical, and under every partial valuation they
have the value of the formula and its negation. -/
theorem toDnf_canonical_eval (f : Formula) :
    f.toDnf.Canonical ∧ f.negatedDnf.Canonical ∧
      ∀ v, f.toDnf.eval v = f.eval v ∧ f.negatedDnf.eval v = (f.eval v).not := by
  rw [toDnf_eq_ofTerms, negatedDnf_eq_ofTerms]
  refine ⟨canonical_ofTerms _, canonical_ofTerms _, ?_⟩
  intro v
  constructor
  · rw [eval_ofTerms, eval_terms]
    rfl
  · rw [eval_ofTerms, eval_terms]
    rfl

end Formula

end Subsumption
