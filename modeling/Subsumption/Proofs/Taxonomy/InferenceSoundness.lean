import Subsumption.Proofs.Formula.Satisfiability
import Subsumption.Proofs.Taxonomy.Forcing
/-!
Soundness of inference.  Where the constraints are true, inference does not change the
value of a formula, whether or not the valuation is total.
-/

namespace Subsumption

namespace Taxonomy

open Formula

variable {t : Taxonomy} {v : Valuation} {conjuncts : List Formula}

theorem eval_ofLiterals_eq_some_true {literals : List Literal} :
    (conj (literals.map ofLiteral)).eval v = some true ↔ ∀ l ∈ literals, v.Satisfies l := by
  rw [eval_conj, Truth.all_eq_some_true, List.map_map, List.forall_mem_map]
  exact forall₂_congr fun _ _ => eval_ofLiteral_eq_some_true

/-- The value of a conjunction after inference, also where nothing is inferred. -/
theorem eval_inferFrom_conj (t : Taxonomy) (v : Valuation) (conjuncts : List Formula) :
    (t.inferFrom (conj conjuncts)).eval v =
      ((conj conjuncts).eval v).and
        ((conj ((t.inferred conjuncts).toList.map ofLiteral)).eval v) := by
  unfold inferFrom
  dsimp only
  split
  · next hempty =>
    have hnil : (t.inferred conjuncts).toList = [] := by
      rw [← List.isEmpty_iff, Std.ExtTreeSet.isEmpty_toList]
      exact hempty
    rw [hnil, List.map_nil, eval_conj v [], List.map_nil, Truth.all_nil, Truth.and_some_true]
  · rw [eval_conj_pair]

namespace Consistent

/-- Under the constraints what is inferred from a conjunction is satisfied,
unless the conjunction is false. -/
theorem satisfies_of_mem_inferred (h : t.Consistent) (hv : t.constraints.eval v = some true)
    (hconj : (conj conjuncts).eval v ≠ some false) {m : Literal}
    (hm : m ∈ t.inferred conjuncts) : v.Satisfies m := by
  obtain ⟨l, hl, hforced⟩ := mem_inferred_iff.1 hm
  obtain ⟨hsign, hpath⟩ := h.mem_forced_iff.1 hforced
  have hopen : v l.atom ≠ some (!l.sign) := by
    intro hclosed
    apply hconj
    rw [eval_conj, Truth.all_eq_some_false, List.mem_map]
    exact ⟨ofLiteral l, hl, eval_ofLiteral_eq_some_false.2 hclosed⟩
  rw [Valuation.Satisfies, hsign]
  exact eq_some_of_carried hv hpath hopen

/-- Under the constraints inference keeps the value of every formula. -/
theorem eval_inferFrom (h : t.Consistent) (hv : t.constraints.eval v = some true) (f : Formula) :
    (t.inferFrom f).eval v = f.eval v := by
  cases f with
  | conj conjuncts =>
    rw [eval_inferFrom_conj]
    by_cases hfalse : (conj conjuncts).eval v = some false
    · rw [hfalse, Truth.some_false_and]
    · have hinferred : (conj ((t.inferred conjuncts).toList.map ofLiteral)).eval v = some true := by
        rw [eval_ofLiterals_eq_some_true]
        intro m hm
        exact h.satisfies_of_mem_inferred hv hfalse (Std.ExtTreeSet.mem_toList.1 hm)
      rw [hinferred, Truth.and_some_true]
  | _ => rfl

theorem eval_conj_constraints_inferFrom (h : t.Consistent) (hv : v.Total) (f : Formula) :
    (conj [t.constraints, f]).eval v = (conj [t.constraints, t.inferFrom f]).eval v := by
  rw [eval_conj_pair, eval_conj_pair]
  obtain ⟨value, hvalue⟩ := Option.isSome_iff_exists.1 (isSome_eval_of_total t.constraints hv)
  -- The constraints are decided, and where they are false both sides are.
  cases value with
  | true => rw [h.eval_inferFrom hvalue]
  | false => rw [hvalue, Truth.some_false_and, Truth.some_false_and]

/-- What inference refutes is refuted by the constraints. -/
theorem branches_conj_constraints_eq_nil (h : t.Consistent) (f : Formula)
    (hclosed : (t.inferFrom f).branches = []) : (conj [t.constraints, f]).branches = [] := by
  rw [branches, tableau_eq_nil_iff] at hclosed ⊢
  intro v hv
  rw [eval_conj_pair, Truth.and_eq_some_true] at hv
  obtain ⟨hconstraints, hf⟩ := hv
  apply hclosed v
  rw [h.eval_inferFrom hconstraints, hf]

end Consistent

/-- Inference is sound for every formula and every reachable taxonomy, cycles
included.  It keeps the value under every valuation that makes the constraints
true, so joined with the constraints a formula has the same value before and
after on every total valuation, and is refuted if it is refuted after. -/
theorem Reachable.inference_sound (h : t.Reachable) (f : Formula) :
    (∀ v : Valuation, t.constraints.eval v = some true → (t.inferFrom f).eval v = f.eval v) ∧
      (∀ v : Valuation, v.Total →
        (conj [t.constraints, f]).eval v = (conj [t.constraints, t.inferFrom f]).eval v) ∧
      ((t.inferFrom f).branches = [] → (conj [t.constraints, f]).branches = []) := by
  have hconsistent : t.Consistent := .of_reachable h
  refine ⟨?_, ?_, ?_⟩
  · intro v hv
    exact hconsistent.eval_inferFrom hv f
  · intro v hv
    exact hconsistent.eval_conj_constraints_inferFrom hv f
  · exact hconsistent.branches_conj_constraints_eq_nil f

/-- Two elements below each other, and a third below one of them. -/
def loop : Taxonomy :=
  run ∅ [.addElements [⟨"p"⟩, ⟨"q"⟩, ⟨"r"⟩], .addParent ⟨"p"⟩ ⟨"q"⟩,
    .addChildren ⟨"p"⟩ [⟨"q"⟩, ⟨"r"⟩]]

theorem inference_sound_loop :
    loop.Reachable ∧
      (loop.inferFrom (conj [atom ⟨"r"⟩, neg (atom ⟨"q"⟩)])).eval
        (Valuation.ofLiterals [⟨⟨"p"⟩, true⟩, ⟨⟨"q"⟩, true⟩]) = some false ∧
      (conj [loop.constraints, conj [atom ⟨"r"⟩, neg (atom ⟨"q"⟩)]]).branches = [] := by
  have hreachable : loop.Reachable := (Reachable.ofSettings {}).run _
  have hconstraints : loop.constraints =
      conj [imp (atom ⟨"p"⟩) (atom ⟨"q"⟩), imp (atom ⟨"q"⟩) (atom ⟨"p"⟩),
        imp (atom ⟨"r"⟩) (atom ⟨"p"⟩)] := by
    decide +kernel
  obtain ⟨hkeeps, -, hrefutes⟩ :=
    Reachable.inference_sound hreachable (conj [atom ⟨"r"⟩, neg (atom ⟨"q"⟩)])
  refine ⟨hreachable, ?_, ?_⟩
  · rw [hkeeps]
    · simp only [eval_conj, eval_neg, eval_atom, List.map_cons, List.map_nil]
      decide
    · rw [hconstraints]
      simp only [eval_conj, eval_imp, eval_atom, List.map_cons, List.map_nil]
      decide
  · apply hrefutes
    decide +kernel

end Taxonomy

end Subsumption
