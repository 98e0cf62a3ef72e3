import Mathlib.Order.Fin.Basic
import Mathlib.Data.List.Perm.Basic
import Subsumption.Formula.Evaluation
/-!
Strong Kleene evaluation: a conjunction has the least value of an operand and a
disjunction the greatest, and no other evaluation obeys the laws.  Any relation that
the connectives keep goes over from atoms to formulas.
-/

namespace Subsumption

namespace Truth

/-- How true a value is: false is below undecided, and undecided below true. -/
def degree : Truth → Fin 3
  | some false => 0
  | none => 1
  | some true => 2

theorem degree_injective {a b : Truth} (h : a.degree = b.degree) : a = b := by
  rcases a with _ | _ | _ <;> rcases b with _ | _ | _ <;> simp_all [degree]

theorem degree_and (a b : Truth) : (and a b).degree = min a.degree b.degree := by
  rcases a with _ | _ | _ <;> rcases b with _ | _ | _ <;> rfl

theorem degree_or (a b : Truth) : (or a b).degree = max a.degree b.degree := by
  rcases a with _ | _ | _ <;> rcases b with _ | _ | _ <;> rfl

theorem degree_all (values : List Truth) :
    (all values).degree = (values.map degree).foldr min 2 := by
  induction values with
  | nil => rfl
  | cons a values ih => rw [all_cons, degree_and, ih, List.map_cons, List.foldr_cons]

theorem degree_any (values : List Truth) :
    (any values).degree = (values.map degree).foldr max 0 := by
  induction values with
  | nil => rfl
  | cons a values ih => rw [any_cons, degree_or, ih, List.map_cons, List.foldr_cons]

/-- The connectives take related values to related values.  Truth, negation and
conjunction suffice, as the others are made from them. -/
structure Kept (r : Truth → Truth → Prop) : Prop where
  some_true : r (some true) (some true)
  negation {a a' : Truth} : r a a' → r a.not a'.not
  conjunction {a a' b b' : Truth} : r a a' → r b b' → r (and a b) (and a' b')

namespace Kept

variable {r : Truth → Truth → Prop} {a a' b b' : Truth}

theorem disjunction (h : Kept r) (ha : r a a') (hb : r b b') : r (or a b) (or a' b') := by
  have hdual := h.negation (h.conjunction (h.negation ha) (h.negation hb))
  simpa only [not_and, not_not] using hdual

theorem implication (h : Kept r) (ha : r a a') (hb : r b b') : r (imp a b) (imp a' b') := by
  rw [imp_eq_or, imp_eq_or]
  exact h.disjunction (h.negation ha) hb

theorem biconditional (h : Kept r) (ha : r a a') (hb : r b b') : r (iff a b) (iff a' b') := by
  rw [iff_eq_or, iff_eq_or]
  exact h.disjunction (h.conjunction ha hb) (h.conjunction (h.negation ha) (h.negation hb))

theorem all_map (h : Kept r) {α : Type} {f g : α → Truth} {items : List α}
    (hitems : ∀ x ∈ items, r (f x) (g x)) : r (all (items.map f)) (all (items.map g)) := by
  induction items with
  | nil => exact h.some_true
  | cons x items ih =>
    obtain ⟨hx, hrest⟩ := List.forall_mem_cons.1 hitems
    exact h.conjunction hx (ih hrest)

theorem any_map (h : Kept r) {α : Type} {f g : α → Truth} {items : List α}
    (hitems : ∀ x ∈ items, r (f x) (g x)) : r (any (items.map f)) (any (items.map g)) := by
  induction items with
  | nil => exact h.negation h.some_true
  | cons x items ih =>
    obtain ⟨hx, hrest⟩ := List.forall_mem_cons.1 hitems
    exact h.disjunction hx (ih hrest)

end Kept

theorem kept_eq : Kept (· = ·) where
  some_true := rfl
  negation ha := congrArg not ha
  conjunction ha hb := congrArg₂ and ha hb

theorem kept_isSome : Kept fun a _ => a.isSome where
  some_true := rfl
  negation := by
    intro a _ ha
    rwa [isSome_not]
  conjunction ha hb := isSome_and ha hb

/-- A decided value is given again. -/
theorem kept_given : Kept fun a b => ∀ s, a = some s → b = some s where
  some_true _ h := h
  negation := by
    intro a b hab s ha
    rw [not_eq_some] at ha ⊢
    exact hab (!s) ha
  conjunction := by
    intro a a' b b' ha hb s hs
    cases s with
    | true =>
      rw [and_eq_some_true] at hs ⊢
      exact ⟨ha true hs.1, hb true hs.2⟩
    | false =>
      rw [and_eq_some_false] at hs ⊢
      exact hs.imp (ha false) (hb false)

end Truth

namespace Formula

variable {v w : Valuation}

/-- What the connectives keep holds of the formula once it holds of its atoms. -/
theorem eval_related {r : Truth → Truth → Prop} (h : Truth.Kept r) (f : Formula)
    (hatoms : ∀ a, a ∈ f.atoms → r (v a) (w a)) : r (f.eval v) (f.eval w) := by
  have hoperand {f g : Formula} (hf : ∀ a, a ∈ f.atoms → r (v a) (w a)) (hg : g ∈ f.children) :
      ∀ a, a ∈ g.atoms → r (v a) (w a) := fun a ha => hf a (mem_atoms_iff.2 (.inr ⟨g, hg, ha⟩))
  induction f with
  | atom a =>
    rw [eval_atom, eval_atom]
    exact hatoms a (mem_atoms_iff.2 (.inl rfl))
  | neg f ih =>
    rw [eval_neg, eval_neg]
    exact h.negation (ih (hoperand hatoms (.head _)))
  | conj fs ih =>
    rw [eval_conj, eval_conj]
    exact h.all_map fun f hf => ih f hf (hoperand hatoms hf)
  | disj fs ih =>
    rw [eval_disj, eval_disj]
    exact h.any_map fun f hf => ih f hf (hoperand hatoms hf)
  | imp f g ihf ihg =>
    rw [eval_imp, eval_imp]
    have hf := ihf (hoperand hatoms (.head _))
    have hg := ihg (hoperand hatoms (.tail _ (.head _)))
    exact h.implication hf hg
  | iff f g ihf ihg =>
    rw [eval_iff, eval_iff]
    have hf := ihf (hoperand hatoms (.head _))
    have hg := ihg (hoperand hatoms (.tail _ (.head _)))
    exact h.biconditional hf hg

/-- Only the atoms of a formula matter. -/
theorem eval_congr (f : Formula) (h : ∀ a, a ∈ f.atoms → v a = w a) : f.eval v = f.eval w :=
  eval_related Truth.kept_eq f h

/-- A formula has a value as soon as each of its atoms has one. -/
theorem isSome_eval_of_atoms (f : Formula) (h : ∀ a, a ∈ f.atoms → (v a).isSome) :
    (f.eval v).isSome :=
  eval_related (w := v) Truth.kept_isSome f h

theorem isSome_eval_of_total (f : Formula) (hv : v.Total) : (f.eval v).isSome :=
  isSome_eval_of_atoms f fun a _ => hv a

/-- A formula keeps its value when the valuation is extended. -/
theorem eval_eq_some_of_extends {f : Formula} {s : Bool} (hw : w.Extends v)
    (hv : f.eval v = some s) : f.eval w = some s :=
  eval_related Truth.kept_given f (fun a _ => hw a) s hv

/-- The strong Kleene laws for a way to evaluate formulas.  An implication is
the disjunction it stands for, and a biconditional waits for both sides. -/
structure StrongKleene (v : Valuation) (value : Formula → Truth) : Prop where
  atom (a : Atom) : value (.atom a) = v a
  neg (f : Formula) : value (.neg f) = (value f).map (!·)
  conj (fs : List Formula) :
    (value (.conj fs)).degree = (fs.map fun f => (value f).degree).foldr min 2
  disj (fs : List Formula) :
    (value (.disj fs)).degree = (fs.map fun f => (value f).degree).foldr max 0
  imp (f g : Formula) : value (.imp f g) = value (.disj [.neg f, g])
  iff_eq_none (f g : Formula) : value (.iff f g) = none ↔ value f = none ∨ value g = none
  iff_eq_some (f g : Formula) (s t : Bool) :
    value f = some s → value g = some t → value (.iff f g) = some (s == t)

theorem strongKleene_eval (v : Valuation) : StrongKleene v (eval v) where
  atom a := eval_atom v a
  neg f := eval_neg v f
  conj fs := by rw [eval_conj, Truth.degree_all, List.map_map]; rfl
  disj fs := by rw [eval_disj, Truth.degree_any, List.map_map]; rfl
  imp f g := by simp [Truth.imp_eq_or]
  iff_eq_none f g := by
    rw [eval_iff]
    cases f.eval v <;> cases g.eval v <;> simp [Truth.iff]
  iff_eq_some f g s t hf hg := by rw [eval_iff, hf, hg, Truth.iff]

/-- The laws determine the value of every formula. -/
theorem StrongKleene.eq_eval {value : Formula → Truth} (h : StrongKleene v value) :
    value = eval v := by
  have heval := strongKleene_eval v
  have hdisj {fs : List Formula} (hfs : ∀ f ∈ fs, value f = f.eval v) :
      value (.disj fs) = (Formula.disj fs).eval v := by
    apply Truth.degree_injective
    rw [h.disj, heval.disj]
    congr 1
    exact List.map_congr_left fun f hf => congrArg Truth.degree (hfs f hf)
  funext f
  induction f with
  | atom a => rw [h.atom, heval.atom]
  | neg f ih => rw [h.neg, heval.neg, ih]
  | conj fs ih =>
    apply Truth.degree_injective
    rw [h.conj, heval.conj]
    congr 1
    exact List.map_congr_left fun f hf => congrArg Truth.degree (ih f hf)
  | disj fs ih => exact hdisj ih
  | imp f g ihf ihg =>
    have hneg : value (.neg f) = (Formula.neg f).eval v := by rw [h.neg, heval.neg, ihf]
    rw [h.imp, heval.imp]
    apply hdisj
    simp [hneg, ihg]
  | iff f g ihf ihg =>
    cases hf : value f with
    | none =>
      rw [(h.iff_eq_none f g).2 (.inl hf), (heval.iff_eq_none f g).2 (.inl (ihf ▸ hf))]
    | some s =>
      cases hg : value g with
      | none => rw [(h.iff_eq_none f g).2 (.inr hg), (heval.iff_eq_none f g).2 (.inr (ihg ▸ hg))]
      | some t =>
        rw [h.iff_eq_some f g s t hf hg, heval.iff_eq_some f g s t (ihf ▸ hf) (ihg ▸ hg)]

/-- Operands may stand in any order, as the least and the greatest of some
values do not depend on it. -/
theorem eval_operands_perm {fs gs : List Formula} (h : fs.Perm gs) :
    (conj fs).eval v = (conj gs).eval v ∧ (disj fs).eval v = (disj gs).eval v := by
  have heval := strongKleene_eval v
  constructor
  · apply Truth.degree_injective
    rw [heval.conj, heval.conj]
    exact (h.map _).foldr_eq 2
  · apply Truth.degree_injective
    rw [heval.disj, heval.disj]
    exact (h.map _).foldr_eq 0

/-- Evaluation is the one way to obey the strong Kleene laws, in whatever order
operands stand.  It looks at the atoms of the formula only, gives a value once
they have values, and keeps a value when the valuation is extended. -/
theorem strongKleene_local_monotone (f : Formula) (v w : Valuation) :
    (∀ value, StrongKleene v value ↔ value = eval v) ∧
      (∀ fs gs : List Formula, fs.Perm gs →
        (conj fs).eval v = (conj gs).eval v ∧ (disj fs).eval v = (disj gs).eval v) ∧
      ((∀ a, a ∈ f.atoms → v a = w a) → f.eval v = f.eval w) ∧
      ((∀ a, a ∈ f.atoms → (v a).isSome) → (f.eval v).isSome) ∧
      (w.Extends v → ∀ s, f.eval v = some s → f.eval w = some s) := by
  refine ⟨?_, ?_, eval_congr f, isSome_eval_of_atoms f, ?_⟩
  · intro value
    constructor
    · exact StrongKleene.eq_eval
    · rintro rfl
      exact strongKleene_eval v
  · intro fs gs hperm
    exact eval_operands_perm hperm
  · intro hw s hs
    exact eval_eq_some_of_extends hw hs

end Formula

end Subsumption
