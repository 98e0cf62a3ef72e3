import Subsumption.Formula.OpenBranches
import Subsumption.Proofs.Branch.Product
import Subsumption.Proofs.Formula.DnfPacking
/-!
Rewriting a part of a formula by a rule, at any depth.  A rule that keeps the terms of
a formula and of its negation keeps them wherever it is applied, and the same holds of
branches up to their order.
-/

namespace Subsumption

namespace Dnf

variable {α : Type}

theorem product_assoc (a b c : List (List α)) :
    product (product a b) c = product a (product b c) := by
  simp [product, List.flatMap_assoc, List.flatMap_map, List.map_flatMap, Function.comp_def]

instance : Std.Associative (@product α) := ⟨product_assoc⟩

instance : Std.LawfulIdentity (@product α) [[]] where
  left_id terms := by simp [product]
  right_id terms := by simp [product]

theorem conjoin_eq_foldr (dnfs : List (Thunk (List (List α)))) :
    conjoin dnfs = (dnfs.map Thunk.get).foldr product [[]] := by
  rw [conjoin, conjoinFrom_eq_foldl, foldl_get_eq_foldr]

end Dnf

namespace Formula

/-- The second formula is the first with a part of it replaced by the rule. -/
inductive Rewrites (rule : Formula → Formula → Prop) : Formula → Formula → Prop
  | root {f g : Formula} : rule f g → Rewrites rule f g
  | neg {f g : Formula} : Rewrites rule f g → Rewrites rule (.neg f) (.neg g)
  | conj {f g : Formula} (before after : List Formula) : Rewrites rule f g →
      Rewrites rule (.conj (before ++ f :: after)) (.conj (before ++ g :: after))
  | disj {f g : Formula} (before after : List Formula) : Rewrites rule f g →
      Rewrites rule (.disj (before ++ f :: after)) (.disj (before ++ g :: after))
  | imp_left {f g : Formula} (h : Formula) : Rewrites rule f g →
      Rewrites rule (.imp f h) (.imp g h)
  | imp_right {f g : Formula} (h : Formula) : Rewrites rule f g →
      Rewrites rule (.imp h f) (.imp h g)
  | iff_left {f g : Formula} (h : Formula) : Rewrites rule f g →
      Rewrites rule (.iff f h) (.iff g h)
  | iff_right {f g : Formula} (h : Formula) : Rewrites rule f g →
      Rewrites rule (.iff h f) (.iff h g)

theorem terms_conj (fs : List Formula) (sign : Bool) : (conj fs).terms sign =
    if sign then (fs.map (terms true)).foldr Dnf.product [[]] else fs.flatMap (terms false) := by
  rw [terms, Dnf.conjoin_eq_foldr, List.map_map]
  rfl

theorem terms_disj (fs : List Formula) (sign : Bool) : (disj fs).terms sign =
    if sign then fs.flatMap (terms true) else (fs.map (terms false)).foldr Dnf.product [[]] := by
  rw [terms, Dnf.conjoin_eq_foldr, List.map_map]
  rfl

theorem tableau_conj (fs : List Formula) (sign : Bool) : (conj fs).tableau sign =
    if sign then (fs.map (tableau true)).foldr Branch.product [∅]
    else fs.flatMap (tableau false) := by
  rw [tableau, Branch.conjoin_eq_foldr, List.map_map]
  rfl

theorem tableau_disj (fs : List Formula) (sign : Bool) : (disj fs).tableau sign =
    if sign then fs.flatMap (tableau true)
    else (fs.map (tableau false)).foldr Branch.product [∅] := by
  rw [tableau, Branch.conjoin_eq_foldr, List.map_map]
  rfl

variable {rule : Formula → Formula → Prop} {f g : Formula}

/-- A rule that keeps the terms for both signs keeps them at any depth. -/
theorem Rewrites.terms_eq (hrule : ∀ f g, rule f g → ∀ sign, f.terms sign = g.terms sign)
    (h : Rewrites rule f g) (sign : Bool) : f.terms sign = g.terms sign := by
  induction h generalizing sign with
  | root happlies => exact hrule _ _ happlies sign
  | neg _ ih => rw [terms, terms, ih]
  | conj before after _ ih => simp only [terms_conj, List.map_append, List.map_cons,
      List.flatMap_append, List.flatMap_cons, ih]
  | disj before after _ ih => simp only [terms_disj, List.map_append, List.map_cons,
      List.flatMap_append, List.flatMap_cons, ih]
  | imp_left _ _ ih => simp only [terms, ih]
  | imp_right _ _ ih => simp only [terms, ih]
  | iff_left _ _ ih => simp only [terms, ih]
  | iff_right _ _ ih => simp only [terms, ih]

/-- A rule that only reorders the branches for both signs only reorders them at
any depth. -/
theorem Rewrites.tableau_perm
    (hrule : ∀ f g, rule f g → ∀ sign, (f.tableau sign).Perm (g.tableau sign))
    (h : Rewrites rule f g) (sign : Bool) : (f.tableau sign).Perm (g.tableau sign) := by
  induction h generalizing sign with
  | root happlies => exact hrule _ _ happlies sign
  | neg _ ih =>
    rw [tableau, tableau]
    exact ih !sign
  | @conj f g before after _ ih =>
    rw [tableau_conj, tableau_conj]
    cases sign with
    | true => simpa using Branch.foldr_product_perm_middle (ih true) _ _
    | false => simpa using ((ih false).append_right (after.flatMap (tableau false))).append_left _
  | @disj f g before after _ ih =>
    rw [tableau_disj, tableau_disj]
    cases sign with
    | true => simpa using ((ih true).append_right (after.flatMap (tableau true))).append_left _
    | false => simpa using Branch.foldr_product_perm_middle (ih false) _ _
  | imp_left h _ ih =>
    rw [tableau, tableau]
    cases sign with
    | true => simpa using (ih false).append_right _
    | false => simpa using Branch.product_perm (ih true) (.refl (h.tableau false))
  | imp_right h _ ih =>
    rw [tableau, tableau]
    cases sign with
    | true => simpa using (ih true).append_left _
    | false => simpa using Branch.product_perm (.refl (h.tableau true)) (ih false)
  | iff_left h _ ih =>
    rw [tableau, tableau]
    exact (Branch.product_perm (ih true) (.refl _)).append
      (Branch.product_perm (ih false) (.refl _))
  | iff_right h _ ih =>
    rw [tableau, tableau]
    exact (Branch.product_perm (.refl _) (ih sign)).append
      (Branch.product_perm (.refl _) (ih !sign))

end Formula

end Subsumption
