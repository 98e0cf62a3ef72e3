import Subsumption.Proofs.Formula.CanonicalDnf
/-!
Superfluous connectives.  A conjunction or disjunction of one operand says no more
than the operand, and taking all of them away is all that normalization does to a
formula in disjunctive normal form.
-/

namespace Subsumption

namespace Formula

/-- The formula with its conjunctions and disjunctions of one operand, at any
depth, replaced by that operand. -/
def unwrap : Formula → Formula
  | atom a => atom a
  | neg f => neg f.unwrap
  | conj fs => wrap conj (fs.map unwrap)
  | disj fs => wrap disj (fs.map unwrap)
  | imp f g => imp f.unwrap g.unwrap
  | iff f g => iff f.unwrap g.unwrap

/-- No conjunction and no disjunction of one operand is in the formula. -/
structure Unwrapped (f : Formula) : Prop where
  length_conj : ∀ gs, conj gs ∈ f.subformulas → gs.length ≠ 1
  length_disj : ∀ gs, disj gs ∈ f.subformulas → gs.length ≠ 1

variable {f g : Formula}

theorem Unwrapped.of_mem_children (h : f.Unwrapped) (hg : g ∈ f.children) : g.Unwrapped := by
  have hinside : ∀ k ∈ g.subformulas, k ∈ f.subformulas := by
    intro k hk
    rw [subformulas_eq]
    exact List.mem_cons_of_mem _ (List.mem_flatMap_of_mem hg hk)
  exact ⟨fun gs hgs => h.length_conj gs (hinside _ hgs),
    fun gs hgs => h.length_disj gs (hinside _ hgs)⟩

/-- There is nothing to take away. -/
theorem Unwrapped.unwrap_eq (h : f.Unwrapped) : f.unwrap = f := by
  have hoperands {fs : List Formula} (ih : ∀ g ∈ fs, g.Unwrapped → g.unwrap = g)
      (hfs : ∀ g ∈ fs, g.Unwrapped) : fs.map unwrap = fs := by
    simpa using List.map_congr_left fun g hg => ih g hg (hfs g hg)
  induction f with
  | atom a => rw [unwrap]
  | neg f ih => rw [unwrap, ih (h.of_mem_children (.head _))]
  | conj fs ih =>
    rw [unwrap, hoperands ih fun g hg => h.of_mem_children hg]
    exact wrap_of_length_ne_one (h.length_conj fs (by simp [subformulas]))
  | disj fs ih =>
    rw [unwrap, hoperands ih fun g hg => h.of_mem_children hg]
    exact wrap_of_length_ne_one (h.length_disj fs (by simp [subformulas]))
  | imp f g ihf ihg =>
    rw [unwrap, ihf (h.of_mem_children (.head _)), ihg (h.of_mem_children (.tail _ (.head _)))]
  | iff f g ihf ihg =>
    rw [unwrap, ihf (h.of_mem_children (.head _)), ihg (h.of_mem_children (.tail _ (.head _)))]

theorem Canonical.unwrapped (h : f.Canonical) : f.Unwrapped := ⟨h.length_conj, h.length_disj⟩

theorem unwrap_ofLiteral (l : Literal) : (ofLiteral l).unwrap = ofLiteral l := by
  obtain ⟨a, _ | _⟩ := l <;> simp [ofLiteral, unwrap]

/-- A formula in disjunctive normal form is cut into literals only. -/
theorem isDnf_eq_all (f : Formula) :
    f.isDnf = f.cut.all fun gs => gs.all fun g => g.literal?.isSome := by
  have hterm (g : Formula) : g.isTerm = g.conjuncts.all fun k => k.literal?.isSome := by
    cases g with
    | conj fs => rfl
    | _ => simp [isTerm, conjuncts]
  have hterms : f.isDnf = f.disjuncts.all isTerm := by
    cases f with
    | disj fs => rfl
    | _ => simp [isDnf, disjuncts]
  rw [hterms, cut, List.all_map]
  congr 1
  funext g
  exact hterm g

theorem isSome_terms? (h : f.isDnf = true) : f.terms?.isSome := by
  simp only [isDnf_eq_all, List.all_eq_true] at h
  exact isSome_mapM fun gs hgs => isSome_mapM (h gs hgs)

theorem isDnf_of_terms?_eq_some {ts : Dnf} (h : f.terms? = some ts) : f.isDnf = true := by
  rw [isDnf_eq_all, terms?_eq_some_iff.1 h]
  simp

theorem wrap_map_unwrap_conjuncts (f : Formula) :
    wrap conj (f.conjuncts.map unwrap) = f.unwrap := by
  cases f with
  | conj fs => rw [conjuncts, unwrap]
  | _ => rfl

theorem wrap_map_unwrap_disjuncts (f : Formula) :
    wrap disj (f.disjuncts.map unwrap) = f.unwrap := by
  cases f with
  | disj fs => rw [disjuncts, unwrap]
  | _ => rfl

/-- Packing what a formula in disjunctive normal form is cut into takes away its
superfluous connectives. -/
theorem pack_cut (h : f.isDnf = true) : pack f.cut = f.unwrap := by
  have hliterals (g : Formula) (hg : g ∈ f.disjuncts) : g.conjuncts.map unwrap = g.conjuncts := by
    refine (List.map_congr_left fun k hk => ?_).trans (List.map_id' _)
    simp only [isDnf_eq_all, List.all_eq_true] at h
    obtain ⟨l, hl⟩ := Option.isSome_iff_exists.1 (h _ (List.mem_map_of_mem hg) k hk)
    rw [literal?_eq_some_iff.1 hl]
    exact unwrap_ofLiteral l
  have hterms : f.cut.map (wrap conj) = f.disjuncts.map unwrap := by
    rw [cut, List.map_map]
    apply List.map_congr_left
    intro g hg
    rw [← wrap_map_unwrap_conjuncts g, hliterals g hg]
    rfl
  rw [pack, hterms, wrap_map_unwrap_disjuncts]

theorem unwrap_of_terms?_eq_some {ts : Dnf} (h : f.terms? = some ts) : f.unwrap = ofTerms ts := by
  rw [← pack_cut (isDnf_of_terms?_eq_some h), terms?_eq_some_iff.1 h, ofTerms]

/-- Normalization leaves a formula alone exactly when it is in disjunctive normal
form without superfluous connectives.  Of a formula in disjunctive normal form it
takes away the superfluous connectives and keeps the terms.  So it is
idempotent. -/
theorem toDnf_eq_self_iff (f : Formula) :
    (f.toDnf = f ↔ f.isDnf = true ∧ f.Unwrapped) ∧
      (f.isDnf = true → f.toDnf = f.unwrap ∧
        ∃ ts, f.terms? = some ts ∧ f.toDnf.terms? = some ts) ∧
      f.toDnf.toDnf = f.toDnf := by
  have hnormal (h : f.isDnf = true) :
      f.toDnf = f.unwrap ∧ ∃ ts, f.terms? = some ts ∧ f.toDnf.terms? = some ts := by
    obtain ⟨ts, hts⟩ := Option.isSome_iff_exists.1 (isSome_terms? h)
    rw [toDnf_eq_ofTerms, terms_of_cut_eq (terms?_eq_some_iff.1 hts)]
    exact ⟨(unwrap_of_terms?_eq_some hts).symm, ts, hts, terms?_ofTerms ts⟩
  refine ⟨⟨?_, ?_⟩, hnormal, ?_⟩
  · intro h
    have hcanonical : f.Canonical := by
      rw [← h, toDnf_eq_ofTerms]
      exact canonical_ofTerms _
    exact ⟨hcanonical.isDnf, hcanonical.unwrapped⟩
  · rintro ⟨hdnf, hunwrapped⟩
    rw [(hnormal hdnf).1, hunwrapped.unwrap_eq]
  · rw [toDnf_eq_ofTerms f, toDnf_eq_ofTerms, terms_ofTerms]

end Formula

end Subsumption
