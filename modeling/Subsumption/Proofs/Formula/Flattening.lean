import Subsumption.Proofs.Formula.OpenTerms
import Subsumption.Proofs.Formula.Rewriting
/-!
Flattening nested conjunctions and disjunctions, at any depth.  Distribution is
associative to the letter, so the terms of the whole stay the same, in the same order
and as often.
-/

namespace Subsumption

/-- What is folded by itself may be folded in its place. -/
theorem foldr_splice {α : Type} {op : α → α → α} {unit : α} [Std.Associative op]
    [Std.LawfulIdentity op unit] (before inner after : List α) :
    (before ++ inner.foldr op unit :: after).foldr op unit =
      (before ++ inner ++ after).foldr op unit := by
  have hinner (rest : α) : op (inner.foldr op unit) rest = inner.foldr op rest := by
    have hunit : op unit rest = rest := Std.LawfulLeftIdentity.left_id rest
    calc op (inner.foldr op unit) rest = inner.foldr op (op unit rest) := List.foldr_assoc.symm
      _ = inner.foldr op rest := by rw [hunit]
  rw [List.foldr_append, List.foldr_cons, hinner, List.append_assoc, List.foldr_append,
    List.foldr_append]

namespace Formula

/-- A conjunction or disjunction with one of its operands, which has the same
connective, opened up. -/
inductive Flattens : Formula → Formula → Prop
  | conj (before inner after : List Formula) :
      Flattens (.conj (before ++ .conj inner :: after)) (.conj (before ++ inner ++ after))
  | disj (before inner after : List Formula) :
      Flattens (.disj (before ++ .disj inner :: after)) (.disj (before ++ inner ++ after))

variable {f g : Formula}

/-- Where the operands are joined, joining some of them first makes no
difference.  Where they are listed, neither does listing some of them first. -/
theorem Flattens.terms_eq (h : Flattens f g) (sign : Bool) : f.terms sign = g.terms sign := by
  cases h with
  | conj before inner after =>
    cases sign with
    | true =>
      simp only [terms_conj, reduceIte, List.map_append, List.map_cons]
      exact foldr_splice _ _ _
    | false => simp [terms_conj]
  | disj before inner after =>
    cases sign with
    | true => simp [terms_disj]
    | false =>
      simp only [terms_disj, Bool.false_eq_true, reduceIte, List.map_append, List.map_cons]
      exact foldr_splice _ _ _

/-- Opening up a nested conjunction or disjunction, at any depth, changes
neither normal form and neither tableau. -/
theorem Rewrites.forms_eq_of_flattens (h : Rewrites Flattens f g) :
    f.toDnf = g.toDnf ∧ f.negatedDnf = g.negatedDnf ∧
      f.branches = g.branches ∧ f.negatedBranches = g.negatedBranches := by
  have hterms (sign : Bool) : f.terms sign = g.terms sign :=
    h.terms_eq (fun _ _ hflattens => hflattens.terms_eq) sign
  refine ⟨?_, ?_, ?_, ?_⟩
  · rw [toDnf_eq_ofTerms, toDnf_eq_ofTerms, hterms]
  · rw [negatedDnf_eq_ofTerms, negatedDnf_eq_ofTerms, hterms]
  · rw [branches, branches, tableau_eq_openBranches, tableau_eq_openBranches, hterms]
  · rw [negatedBranches, negatedBranches, tableau_eq_openBranches, tableau_eq_openBranches,
      hterms]

/-- Below a negation and in one side of a biconditional, a disjunction between
two operands of another. -/
def nested : Formula :=
  neg (iff (atom ⟨"p"⟩) (disj [atom ⟨"q"⟩, disj [atom ⟨"r"⟩, conj []], atom ⟨"p"⟩]))

def opened : Formula :=
  neg (iff (atom ⟨"p"⟩) (disj [atom ⟨"q"⟩, atom ⟨"r"⟩, conj [], atom ⟨"p"⟩]))

theorem forms_eq_of_flattens_nested :
    Rewrites Flattens nested opened ∧ nested.toDnf = opened.toDnf ∧
      nested.negatedDnf = opened.negatedDnf ∧ nested.branches = opened.branches ∧
      nested.negatedBranches = opened.negatedBranches := by
  have hroot : Rewrites Flattens _ _ :=
    .root (.disj [atom ⟨"q"⟩] [atom ⟨"r"⟩, conj []] [atom ⟨"p"⟩])
  have hopened : Rewrites Flattens nested opened := .neg (.iff_right (atom ⟨"p"⟩) hroot)
  exact ⟨hopened, Rewrites.forms_eq_of_flattens hopened⟩

end Formula

end Subsumption
