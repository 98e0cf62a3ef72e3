import Mathlib.Logic.Relation
import Subsumption.Proofs.Formula.Rewriting
/-!
Permuting operands, at any depth and any number of times.  Which merges are tried
depends on the order, but which choices of branches stay open does not, so the
branches are only permuted.
-/

namespace Subsumption.Formula

open Relation

/-- A formula with its operands in another order. -/
inductive Reorders : Formula → Formula → Prop
  | conj {fs gs : List Formula} : fs.Perm gs → Reorders (.conj fs) (.conj gs)
  | disj {fs gs : List Formula} : fs.Perm gs → Reorders (.disj fs) (.disj gs)
  | iff (f g : Formula) : Reorders (.iff f g) (.iff g f)

variable {f g : Formula}

theorem Reorders.tableau_perm (h : Reorders f g) (sign : Bool) :
    (f.tableau sign).Perm (g.tableau sign) := by
  cases h with
  | conj hperm =>
    rw [tableau_conj, tableau_conj]
    cases sign with
    | true => exact Branch.foldr_product_perm (hperm.map (tableau true))
    | false => exact hperm.flatMap_right (tableau false)
  | disj hperm =>
    rw [tableau_disj, tableau_disj]
    cases sign with
    | true => exact hperm.flatMap_right (tableau true)
    | false => exact Branch.foldr_product_perm (hperm.map (tableau false))
  | iff f g =>
    rw [tableau, tableau]
    cases sign with
    | true => exact (Branch.product_perm_comm _ _).append (Branch.product_perm_comm _ _)
    | false =>
      -- The positive side of one is the negative side of the other.
      refine List.perm_append_comm.trans ?_
      exact (Branch.product_perm_comm _ _).append (Branch.product_perm_comm _ _)

theorem tableau_perm_of_reordered (h : ReflTransGen (Rewrites Reorders) f g) (sign : Bool) :
    (f.tableau sign).Perm (g.tableau sign) := by
  induction h with
  | refl => exact .refl _
  | tail _ hstep ih =>
    exact ih.trans (hstep.tableau_perm (fun _ _ hreorders => hreorders.tableau_perm) sign)

/-- Operands may stand in any order: the branches of the formula and those of its
negation are the same, each as often. -/
theorem branches_perm_of_reordered (h : ReflTransGen (Rewrites Reorders) f g) :
    g.branches.Perm f.branches ∧ g.negatedBranches.Perm f.negatedBranches :=
  ⟨(tableau_perm_of_reordered h true).symm, (tableau_perm_of_reordered h false).symm⟩

/-- An excluded middle and a biconditional below a negation. -/
def asGiven : Formula :=
  neg (conj [disj [atom ⟨"p"⟩, neg (atom ⟨"p"⟩)], iff (atom ⟨"q"⟩) (atom ⟨"p"⟩)])

/-- The same with the operands of the conjunction, those of the disjunction and
the sides of the biconditional exchanged. -/
def rearranged : Formula :=
  neg (conj [iff (atom ⟨"p"⟩) (atom ⟨"q"⟩), disj [neg (atom ⟨"p"⟩), atom ⟨"p"⟩]])

theorem branches_perm_rearranged :
    ReflTransGen (Rewrites Reorders) asGiven rearranged ∧
      rearranged.branches.Perm asGiven.branches ∧
      rearranged.negatedBranches.Perm asGiven.negatedBranches := by
  have houter : Rewrites Reorders asGiven
      (neg (conj [iff (atom ⟨"q"⟩) (atom ⟨"p"⟩), disj [atom ⟨"p"⟩, neg (atom ⟨"p"⟩)]])) :=
    .neg (.root (.conj (.swap _ _ [])))
  have hsides : Rewrites Reorders _
      (neg (conj [iff (atom ⟨"p"⟩) (atom ⟨"q"⟩), disj [atom ⟨"p"⟩, neg (atom ⟨"p"⟩)]])) :=
    .neg (.conj [] _ (.root (.iff (atom ⟨"q"⟩) (atom ⟨"p"⟩))))
  have hinner : Rewrites Reorders _ rearranged :=
    .neg (.conj [iff (atom ⟨"p"⟩) (atom ⟨"q"⟩)] [] (.root (.disj (.swap _ _ []))))
  have hreordered := ((ReflTransGen.single houter).tail hsides).tail hinner
  exact ⟨hreordered, branches_perm_of_reordered hreordered⟩

end Subsumption.Formula
