import Subsumption.Proofs.Formula.OpenTerms
import Subsumption.Proofs.Formula.Rewriting
/-!
Polarity of occurrences.  Expanding a formula, or building its tableau, takes literals
from occurrences of their sign only; a premise counts as negated, and the sides of a
biconditional count both ways.
-/

namespace Subsumption

namespace Dnf

/-- The literal is in some term of the list. -/
def Mentions (ts : Dnf) (l : Literal) : Prop := ∃ t ∈ ts, l ∈ t

variable {l : Literal}

theorem mentions_append {left right : Dnf} :
    Mentions (left ++ right) l ↔ left.Mentions l ∨ right.Mentions l := by
  simp only [Mentions, List.mem_append, or_and_right, exists_or]

theorem mentions_flatMap {α : Type} {f : α → Dnf} {items : List α} :
    Mentions (items.flatMap f) l ↔ ∃ x ∈ items, (f x).Mentions l := by
  simp only [Mentions, List.mem_flatMap]
  constructor
  · rintro ⟨t, ⟨x, hx, ht⟩, hl⟩
    exact ⟨x, hx, t, ht, hl⟩
  · rintro ⟨x, hx, t, ht, hl⟩
    exact ⟨t, ⟨x, hx, ht⟩, hl⟩

/-- Distribution brings in no new literal.  It may lose one, where the other
list has no term to go with it. -/
theorem Mentions.of_product {left right : Dnf} (h : Mentions (product left right) l) :
    left.Mentions l ∨ right.Mentions l := by
  simp only [Mentions, product, List.mem_flatMap, List.mem_map] at h
  obtain ⟨_, ⟨s, hs, t, ht, rfl⟩, hl⟩ := h
  rcases List.mem_append.1 hl with hl | hl
  · exact Or.inl ⟨s, hs, hl⟩
  · exact Or.inr ⟨t, ht, hl⟩

theorem Mentions.of_foldr_product {α : Type} {f : α → Dnf} {items : List α}
    (h : Mentions ((items.map f).foldr product [[]]) l) : ∃ x ∈ items, (f x).Mentions l := by
  induction items with
  | nil => simp [Mentions] at h
  | cons x items ih =>
    rcases Mentions.of_product h with hx | hrest
    · exact ⟨x, List.mem_cons_self, hx⟩
    · obtain ⟨y, hy, hl⟩ := ih hrest
      exact ⟨y, List.mem_cons_of_mem x hy, hl⟩

end Dnf

/-- The branch of a term has no other literals than the term. -/
theorem Term.mem_of_branch?_eq_some {t : Term} {b : Branch} {l : Literal}
    (hb : t.branch? = some b) (hl : l ∈ b.literals) : l ∈ t := by
  have hopen : ¬ t.Closed := by
    intro hclosed
    rw [branch?_eq_none_iff.2 hclosed] at hb
    cases hb
  obtain ⟨c, hc, hwithin⟩ := exists_branch?_within.2 (valuation_satisfies hopen)
  obtain rfl : c = b := Option.some.inj (hc.symm.trans hb)
  obtain ⟨a, sign⟩ := l
  have hsign : t.valuation a = some sign := hwithin _ hl
  unfold valuation at hsign
  split at hsign
  · next hpositive =>
    cases hsign
    exact hpositive
  · split at hsign
    · next hnegative =>
      cases hsign
      exact hnegative
    · cases hsign

namespace Formula

/-- The atom occurs in the formula with the given polarity, which a negation and
a premise turn around.  In a biconditional an occurrence counts with both. -/
inductive Occurs (a : Atom) : Bool → Formula → Prop
  | atom : Occurs a true (.atom a)
  | neg {s : Bool} {f : Formula} : Occurs a s f → Occurs a (!s) (.neg f)
  | conj {s : Bool} {f : Formula} {fs : List Formula} :
      f ∈ fs → Occurs a s f → Occurs a s (.conj fs)
  | disj {s : Bool} {f : Formula} {fs : List Formula} :
      f ∈ fs → Occurs a s f → Occurs a s (.disj fs)
  | imp_left {s : Bool} {f g : Formula} : Occurs a s f → Occurs a (!s) (.imp f g)
  | imp_right {s : Bool} {f g : Formula} : Occurs a s g → Occurs a s (.imp f g)
  | iff_left {s t : Bool} {f g : Formula} : Occurs a s f → Occurs a t (.iff f g)
  | iff_right {s t : Bool} {f g : Formula} : Occurs a s g → Occurs a t (.iff f g)

/-- A literal has the sign asked for just when it has not the other one. -/
theorem polarity_flip (s sign : Bool) : (s == sign) = !(s == !sign) := by
  cases s <;> cases sign <;> rfl

/-- What the terms for a sign mention has an occurrence: one of the same sign in
the terms of the formula, and one of the other sign in those of the negation. -/
theorem occurs_of_mentions (f : Formula) {sign : Bool} {l : Literal}
    (hl : (f.terms sign).Mentions l) : Occurs l.atom (l.sign == sign) f := by
  induction f generalizing sign with
  | atom a =>
    have heq : l = ⟨a, sign⟩ := by simpa [terms, Dnf.Mentions] using hl
    subst heq
    rw [beq_self_eq_true]
    exact .atom
  | neg f ih =>
    rw [terms] at hl
    rw [polarity_flip]
    exact .neg (ih hl)
  | conj fs ih =>
    have hoperand : ∃ f ∈ fs, (f.terms sign).Mentions l := by
      rw [terms_conj] at hl
      cases sign with
      | true => exact hl.of_foldr_product
      | false => exact Dnf.mentions_flatMap.1 hl
    obtain ⟨f, hf, hlf⟩ := hoperand
    exact .conj hf (ih f hf hlf)
  | disj fs ih =>
    have hoperand : ∃ f ∈ fs, (f.terms sign).Mentions l := by
      rw [terms_disj] at hl
      cases sign with
      | true => exact Dnf.mentions_flatMap.1 hl
      | false => exact hl.of_foldr_product
    obtain ⟨f, hf, hlf⟩ := hoperand
    exact .disj hf (ih f hf hlf)
  | imp f g ihf ihg =>
    have hside : (f.terms !sign).Mentions l ∨ (g.terms sign).Mentions l := by
      rw [terms] at hl
      cases sign with
      | true => exact Dnf.mentions_append.1 hl
      | false =>
        rw [if_neg (by decide), Dnf.conjoin_pair] at hl
        exact hl.of_product
    rcases hside with hlf | hlg
    · rw [polarity_flip]
      exact .imp_left (ihf hlf)
    · exact .imp_right (ihg hlg)
  | iff f g ihf ihg =>
    rw [terms, Dnf.conjoin_pair, Dnf.conjoin_pair, Dnf.mentions_append] at hl
    rcases hl with hl | hl
    · rcases hl.of_product with hlf | hlg
      · exact .iff_left (ihf hlf)
      · exact .iff_right (ihg hlg)
    · rcases hl.of_product with hlf | hlg
      · exact .iff_left (ihf hlf)
      · exact .iff_right (ihg hlg)

theorem occurs_of_mem_tableau {f : Formula} {sign : Bool} {b : Branch} {l : Literal}
    (hb : b ∈ f.tableau sign) (hl : l ∈ b.literals) : Occurs l.atom (l.sign == sign) f := by
  rw [tableau_eq_openBranches, Dnf.openBranches_eq_filterMap, List.mem_filterMap] at hb
  obtain ⟨t, ht, hbranch⟩ := hb
  exact occurs_of_mentions f ⟨t, ht, Term.mem_of_branch?_eq_some hbranch hl⟩

variable {f : Formula} {a : Atom}

theorem Occurs.mem_atoms {s : Bool} (h : Occurs a s f) : a ∈ f.atoms := by
  induction h with
  | atom => exact mem_atoms_iff.2 (.inl rfl)
  | neg _ ih => exact mem_atoms_iff.2 (.inr ⟨_, .head _, ih⟩)
  | conj hf _ ih => exact mem_atoms_iff.2 (.inr ⟨_, hf, ih⟩)
  | disj hf _ ih => exact mem_atoms_iff.2 (.inr ⟨_, hf, ih⟩)
  | imp_left _ ih => exact mem_atoms_iff.2 (.inr ⟨_, .head _, ih⟩)
  | imp_right _ ih => exact mem_atoms_iff.2 (.inr ⟨_, .tail _ (.head _), ih⟩)
  | iff_left _ ih => exact mem_atoms_iff.2 (.inr ⟨_, .head _, ih⟩)
  | iff_right _ ih => exact mem_atoms_iff.2 (.inr ⟨_, .tail _ (.head _), ih⟩)

theorem mem_atoms_ofLiteral {l : Literal} : a ∈ (ofLiteral l).atoms ↔ l.atom = a := by
  obtain ⟨b, _ | _⟩ := l <;> simp [ofLiteral, mem_atoms, subformulas, eq_comm]

theorem mem_atoms_ofTerm {t : Term} : a ∈ (ofTerm t).atoms ↔ ∃ l ∈ t, l.atom = a := by
  rcases ofTerm_cases t with ⟨l, rfl, hl⟩ | ⟨-, hconj⟩
  · rw [hl, mem_atoms_ofLiteral]
    simp
  · rw [hconj, mem_atoms_iff]
    simp [children, mem_atoms_ofLiteral]

/-- The atoms of a packed list are those of the literals that it mentions. -/
theorem mem_atoms_ofTerms {ts : Dnf} :
    a ∈ (ofTerms ts).atoms ↔ ∃ l, ts.Mentions l ∧ l.atom = a := by
  rcases ofTerms_cases ts with ⟨t, rfl, ht⟩ | ⟨-, hdisj⟩
  · rw [ht, mem_atoms_ofTerm]
    simp [Dnf.Mentions]
  · rw [hdisj, mem_atoms_iff]
    simp only [children, List.mem_map, reduceCtorEq, false_or, exists_exists_and_eq_and,
      mem_atoms_ofTerm]
    constructor
    · rintro ⟨t, ht, l, hl, hatom⟩
      exact ⟨l, ⟨t, ht, hl⟩, hatom⟩
    · rintro ⟨l, ⟨t, ht, hl⟩, hatom⟩
      exact ⟨t, ht, l, hl, hatom⟩

/-- Both normal forms and both tableaux are made of literals that occur in the
formula with their sign, or with the other where the formula is negated.  So
none of them has an atom that is at no leaf of the formula. -/
theorem forms_analytic (f : Formula) :
    (∃ ts, f.toDnf.terms? = some ts ∧ ∀ t ∈ ts, ∀ l ∈ t, Occurs l.atom l.sign f) ∧
      (∃ ts, f.negatedDnf.terms? = some ts ∧ ∀ t ∈ ts, ∀ l ∈ t, Occurs l.atom (!l.sign) f) ∧
      (∀ b ∈ f.branches, ∀ l ∈ b.literals, Occurs l.atom l.sign f) ∧
      (∀ b ∈ f.negatedBranches, ∀ l ∈ b.literals, Occurs l.atom (!l.sign) f) ∧
      (∀ a, a ∈ f.toDnf.atoms ∨ a ∈ f.negatedDnf.atoms → a ∈ f.atoms) ∧
      (∀ b, b ∈ f.branches ∨ b ∈ f.negatedBranches → ∀ l ∈ b.literals, l.atom ∈ f.atoms) ∧
      (∀ a, a ∈ f.atoms ↔ atom a ∈ f.subformulas) := by
  have hatoms (sign : Bool) (a : Atom) (ha : a ∈ (f.dnf sign).atoms) : a ∈ f.atoms := by
    rw [dnf_eq_ofTerms, mem_atoms_ofTerms] at ha
    obtain ⟨l, hl, rfl⟩ := ha
    exact (occurs_of_mentions f hl).mem_atoms
  refine ⟨⟨f.terms true, ?_, ?_⟩, ⟨f.terms false, ?_, ?_⟩, ?_, ?_, ?_, ?_, fun _ => mem_atoms⟩
  · rw [toDnf_eq_ofTerms, terms?_ofTerms]
  · intro t ht l hl
    simpa using occurs_of_mentions f ⟨t, ht, hl⟩
  · rw [negatedDnf_eq_ofTerms, terms?_ofTerms]
  · intro t ht l hl
    simpa using occurs_of_mentions f ⟨t, ht, hl⟩
  · intro b hb l hl
    simpa using occurs_of_mem_tableau hb hl
  · intro b hb l hl
    simpa using occurs_of_mem_tableau hb hl
  · rintro a (ha | ha)
    · exact hatoms true a ha
    · exact hatoms false a ha
  · rintro b (hb | hb) l hl
    · exact (occurs_of_mem_tableau hb hl).mem_atoms
    · exact (occurs_of_mem_tableau hb hl).mem_atoms

end Formula

end Subsumption
