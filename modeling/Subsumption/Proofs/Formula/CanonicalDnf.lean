import Subsumption.Proofs.Formula.DnfPacking
/-!
Canonical disjunctive normal forms: a disjunction at the root only, no connective
around a lone operand, and literals at the leaves.  Every packed list of terms is
canonical.
-/

namespace Subsumption

namespace Formula

/-- A disjunctive normal form without superfluous connectives. -/
structure Canonical (f : Formula) : Prop where
  isDnf : f.isDnf = true
  length_conj : ∀ gs, conj gs ∈ f.subformulas → gs.length ≠ 1
  length_disj : ∀ gs, disj gs ∈ f.subformulas → gs.length ≠ 1
  disj_root : ∀ gs, disj gs ∉ f.children.flatMap subformulas
  leaf : ∀ g ∈ f.subformulas,
    (∃ gs, g = conj gs) ∨ (∃ gs, g = disj gs) ∨ g.literal?.isSome

/-- The subformulas of a literal are literals. -/
theorem eq_ofLiteral_of_mem_subformulas {l : Literal} {g : Formula}
    (hg : g ∈ (ofLiteral l).subformulas) : ∃ m, g = ofLiteral m := by
  obtain ⟨a, _ | _⟩ := l
  · simp only [ofLiteral, subformulas, Bool.false_eq_true, if_false, List.mem_cons,
      List.not_mem_nil, or_false] at hg
    rcases hg with rfl | rfl
    · exact ⟨⟨a, false⟩, rfl⟩
    · exact ⟨⟨a, true⟩, rfl⟩
  · simp only [ofLiteral, subformulas, if_true, List.mem_singleton] at hg
    exact ⟨⟨a, true⟩, hg⟩

/-- Inside a packed term there are literals, and at its root there may be a
conjunction of other than one operand. -/
theorem mem_subformulas_ofTerm {t : Term} {g : Formula} (hg : g ∈ (ofTerm t).subformulas) :
    (∃ m, g = ofLiteral m) ∨ (t.length ≠ 1 ∧ g = conj (t.map ofLiteral)) := by
  rcases ofTerm_cases t with ⟨l, -, hl⟩ | ⟨hlength, hconj⟩
  · rw [hl] at hg
    exact Or.inl (eq_ofLiteral_of_mem_subformulas hg)
  · rw [hconj, subformulas_eq, List.mem_cons] at hg
    rcases hg with rfl | hg
    · exact Or.inr ⟨hlength, rfl⟩
    · simp only [children, List.mem_flatMap, List.mem_map] at hg
      obtain ⟨_, ⟨l, -, rfl⟩, hg⟩ := hg
      exact Or.inl (eq_ofLiteral_of_mem_subformulas hg)

/-- Inside a packed list there are packed terms, and at its root there may be a
disjunction of other than one operand. -/
theorem mem_subformulas_ofTerms {ts : Dnf} {g : Formula} (hg : g ∈ (ofTerms ts).subformulas) :
    (∃ t, g ∈ (ofTerm t).subformulas) ∨ (ts.length ≠ 1 ∧ g = disj (ts.map ofTerm)) := by
  rcases ofTerms_cases ts with ⟨t, -, ht⟩ | ⟨hlength, hdisj⟩
  · rw [ht] at hg
    exact Or.inl ⟨t, hg⟩
  · rw [hdisj, subformulas_eq, List.mem_cons] at hg
    rcases hg with rfl | hg
    · exact Or.inr ⟨hlength, rfl⟩
    · simp only [children, List.mem_flatMap, List.mem_map] at hg
      obtain ⟨_, ⟨t, -, rfl⟩, hg⟩ := hg
      exact Or.inl ⟨t, hg⟩

theorem disj_not_mem_subformulas_ofTerm (t : Term) (gs : List Formula) :
    disj gs ∉ (ofTerm t).subformulas := by
  intro hmem
  rcases mem_subformulas_ofTerm hmem with ⟨l, hl⟩ | ⟨-, hconj⟩
  · exact ofLiteral_ne_disj l gs hl.symm
  · cases hconj

theorem isTerm_ofTerm (t : Term) : (ofTerm t).isTerm = true := by
  rcases ofTerm_cases t with ⟨l, -, hl⟩ | ⟨-, hconj⟩
  · rw [hl]
    obtain ⟨a, _ | _⟩ := l <;> rfl
  · rw [hconj, isTerm, List.all_eq_true]
    intro f hf
    obtain ⟨l, -, rfl⟩ := List.mem_map.1 hf
    rw [literal?_ofLiteral]
    rfl

theorem isDnf_of_isTerm {f : Formula} (hroot : ∀ gs, f ≠ disj gs) (h : f.isTerm = true) :
    f.isDnf = true := by
  cases f with
  | disj gs => exact absurd rfl (hroot gs)
  | _ => exact h

theorem isDnf_ofTerms (ts : Dnf) : (ofTerms ts).isDnf = true := by
  rcases ofTerms_cases ts with ⟨t, -, ht⟩ | ⟨-, hdisj⟩
  · rw [ht]
    exact isDnf_of_isTerm (ofTerm_ne_disj t) (isTerm_ofTerm t)
  · rw [hdisj, isDnf, List.all_eq_true]
    intro f hf
    obtain ⟨t, -, rfl⟩ := List.mem_map.1 hf
    exact isTerm_ofTerm t

theorem canonical_ofTerms (ts : Dnf) : (ofTerms ts).Canonical where
  isDnf := isDnf_ofTerms ts
  length_conj := by
    intro gs hgs
    rcases mem_subformulas_ofTerms hgs with ⟨t, ht⟩ | ⟨-, hdisj⟩
    · rcases mem_subformulas_ofTerm ht with ⟨l, hl⟩ | ⟨hlength, hconj⟩
      · exact absurd hl.symm (ofLiteral_ne_conj l gs)
      · cases hconj
        rwa [List.length_map]
    · cases hdisj
  length_disj := by
    intro gs hgs
    rcases mem_subformulas_ofTerms hgs with ⟨t, ht⟩ | ⟨hlength, hdisj⟩
    · exact absurd ht (disj_not_mem_subformulas_ofTerm t gs)
    · cases hdisj
      rwa [List.length_map]
  disj_root := by
    intro gs hgs
    rcases ofTerms_cases ts with ⟨t, -, ht⟩ | ⟨-, hdisj⟩
    · apply disj_not_mem_subformulas_ofTerm t gs
      rw [ht] at hgs
      rw [subformulas_eq]
      exact List.mem_cons_of_mem _ hgs
    · simp only [hdisj, children, List.mem_flatMap, List.mem_map] at hgs
      obtain ⟨_, ⟨t, -, rfl⟩, hgs⟩ := hgs
      exact disj_not_mem_subformulas_ofTerm t gs hgs
  leaf := by
    intro g hg
    rcases mem_subformulas_ofTerms hg with ⟨t, ht⟩ | ⟨-, hdisj⟩
    · rcases mem_subformulas_ofTerm ht with ⟨l, rfl⟩ | ⟨-, hconj⟩
      · rw [literal?_ofLiteral]
        exact Or.inr (Or.inr rfl)
      · exact Or.inl ⟨_, hconj⟩
    · exact Or.inr (Or.inl ⟨_, hdisj⟩)

end Formula

end Subsumption
