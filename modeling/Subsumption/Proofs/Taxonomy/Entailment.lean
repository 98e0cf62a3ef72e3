import Subsumption.Proofs.Taxonomy.InferenceCompleteness
/-!
What the constraints of a taxonomy entail.  Only immediate edges have a conjunct, but
truth is carried to all ancestors and falsity to all descendants, and nothing else
follows.
-/

namespace Subsumption

namespace Taxonomy

open Relation Formula

/-- The formula is true on every total valuation that makes the constraints
true. -/
def Entails (t : Taxonomy) (f : Formula) : Prop :=
  ∀ v : Valuation, v.Total → t.constraints.eval v = some true → f.eval v = some true

/-- The valuation gives the sign to all that is found in its direction from an
element with the sign: to the ancestors of a true element, or to the descendants
of a false one. -/
def Carried (t : Taxonomy) (v : Valuation) (sign : Bool) : Prop :=
  ∀ a ∈ t, v a = some sign →
    ∃ s, (if sign then t.ancestors a else t.descendants a) = .ok s ∧ ∀ b ∈ s, v b = some sign

variable {t : Taxonomy} {v : Valuation} {a b : Atom}

/-- On a total valuation the constraints say that a sign is carried along every
path, whichever sign it is. -/
theorem eval_constraints_iff_path (hv : v.Total) (sign : Bool) :
    t.constraints.eval v = some true ↔
      ∀ a b, TransGen (t.Carries sign) a b → v a = some sign → v b = some sign := by
  constructor
  · intro hconstraints a b hpath ha
    apply eq_some_of_carried hconstraints hpath
    simp [ha]
  · intro hpaths
    apply (eval_constraints_iff_carries sign).2
    intro a b hcarries
    rcases hv.eq_or a sign with ha | hopposite
    · exact Or.inr (hpaths a b (.single hcarries) ha)
    · exact Or.inl hopposite

/-- The searches find every path, so it is enough to look at their results. -/
theorem Consistent.eval_constraints_iff_carried (h : t.Consistent) (hv : v.Total)
    (sign : Bool) : t.constraints.eval v = some true ↔ t.Carried v sign := by
  rw [eval_constraints_iff_path hv sign]
  constructor
  · intro hpaths a ha hsign
    obtain ⟨s, hs, hmem⟩ := h.exists_carried sign ha
    exact ⟨s, hs, fun b hb => hpaths a b ((hmem b).1 hb) hsign⟩
  · intro hcarried a b hpath hsign
    obtain ⟨c, hcarries, -⟩ := TransGen.head'_iff.1 hpath
    have ha : a ∈ t := h.mem_of_carries hcarries
    obtain ⟨s, hs, hsigns⟩ := hcarried a ha hsign
    obtain ⟨s', hs', hmem⟩ := h.exists_carried sign ha
    obtain rfl : s = s' := Except.ok.inj (hs.symm.trans hs')
    exact hsigns b ((hmem b).2 hpath)

/-- From an atom alone truth is derived at what the atom reaches. -/
theorem derived_atom_iff : t.Derived [atom a] true b ↔ ReflTransGen t.Edge a b := by
  constructor
  · rintro ⟨c, hc, hpath⟩
    cases List.mem_singleton.1 hc
    exact hpath
  · intro hpath
    exact ⟨a, List.mem_singleton.2 rfl, hpath⟩

/-- An implication is entailed exactly when its conclusion can be reached from
its premise.  The completion of the premise is the countermodel otherwise. -/
theorem entails_imp_iff : t.Entails (imp (atom a) (atom b)) ↔ ReflTransGen t.Edge a b := by
  constructor
  · intro hentails
    have himp := hentails (t.completion [atom a] false) total_completion
      eval_constraints_completion
    rw [eval_imp, eval_atom, eval_atom, Truth.imp_eq_some_true] at himp
    have htrue : t.completion [atom a] false a = some true :=
      completion_eq_some_not_iff.2 (derived_atom_iff.2 .refl)
    rcases himp with hfalse | hb
    · rw [htrue] at hfalse
      cases hfalse
    · exact derived_atom_iff.1 (completion_eq_some_not_iff.1 hb)
  · intro hpath v hv hconstraints
    rw [eval_imp, eval_atom, eval_atom, Truth.imp_eq_some_true]
    rcases hv.eq_or a true with ha | hfalse
    · right
      rcases reflTransGen_iff_eq_or_transGen.1 hpath with rfl | hpath
      · exact ha
      · exact (eval_constraints_iff_path hv true).1 hconstraints a b hpath ha
    · exact Or.inl hfalse

/-- The constraints entail that one atom implies another exactly when the two
are the same or the second is an ancestor of the first.  A total valuation
makes the constraints true exactly when it makes all ancestors of its true
elements true, and exactly when it makes all descendants of its false elements
false. -/
theorem Reachable.constraints_exact (h : t.Reachable) :
    (∀ a b, t.Entails (imp (atom a) (atom b)) ↔
        a = b ∨ a ∈ t ∧ ∃ s, t.ancestors a = .ok s ∧ b ∈ s) ∧
      (∀ v : Valuation, v.Total →
        (t.constraints.eval v = some true ↔
          ∀ a ∈ t, v a = some true →
            ∃ s, t.ancestors a = .ok s ∧ ∀ b ∈ s, v b = some true)) ∧
      (∀ v : Valuation, v.Total →
        (t.constraints.eval v = some true ↔
          ∀ a ∈ t, v a = some false →
            ∃ s, t.descendants a = .ok s ∧ ∀ b ∈ s, v b = some false)) := by
  have hconsistent : t.Consistent := .of_reachable h
  refine ⟨?_, ?_, ?_⟩
  · intro a b
    rw [entails_imp_iff, reflTransGen_iff_eq_or_transGen, eq_comm,
      hconsistent.transGen_iff_mem_ancestors]
  · intro v hv
    exact hconsistent.eval_constraints_iff_carried hv true
  · intro v hv
    exact hconsistent.eval_constraints_iff_carried hv false

theorem constraints_exact_loop :
    loop.Reachable ∧ loop.Entails (imp (atom ⟨"r"⟩) (atom ⟨"q"⟩)) ∧
      ¬ loop.Entails (imp (atom ⟨"q"⟩) (atom ⟨"r"⟩)) ∧
      ¬ loop.Entails (imp (atom ⟨"s"⟩) (atom ⟨"p"⟩)) := by
  have hreachable : loop.Reachable := (Reachable.ofSettings {}).run _
  obtain ⟨hentails, -, -⟩ := Reachable.constraints_exact hreachable
  refine ⟨hreachable, ?_, ?_, ?_⟩
  · apply (hentails ⟨"r"⟩ ⟨"q"⟩).2
    exact Or.inr ⟨by decide, {⟨"p"⟩, ⟨"q"⟩}, by decide +kernel, by decide⟩
  · intro hqr
    have hancestors : loop.ancestors ⟨"q"⟩ = .ok {⟨"p"⟩, ⟨"q"⟩} := by decide +kernel
    rcases (hentails ⟨"q"⟩ ⟨"r"⟩).1 hqr with hsame | ⟨-, s, hs, hr⟩
    · exact absurd hsame (by decide)
    · obtain rfl : {⟨"p"⟩, ⟨"q"⟩} = s := Except.ok.inj (hancestors.symm.trans hs)
      exact absurd hr (by decide)
  · intro hsp
    rcases (hentails ⟨"s"⟩ ⟨"p"⟩).1 hsp with hsame | ⟨hs, -⟩
    · exact absurd hsame (by decide)
    · exact absurd hs (by decide)

end Taxonomy

end Subsumption
