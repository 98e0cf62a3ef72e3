import Subsumption.Formula.OpenBranches
import Subsumption.Proofs.Branch.Merge
import Subsumption.Proofs.Formula.DnfPacking
/-!
The tableau as the open part of the disjunctive normal form.  Closed terms may be
struck at every level or only once at the end: the open branches are the same, in the
same order and as often.
-/

namespace Subsumption

/-- The term holds an atom together with its negation. -/
def Term.Closed (t : Term) : Prop := ∃ l ∈ t, l.negate ∈ t

instance (t : Term) : Decidable t.Closed := inferInstanceAs (Decidable (∃ l ∈ t, l.negate ∈ t))

/-- The terms that are not closed, each read as a branch. -/
def Dnf.openBranches (ts : Dnf) : List Branch :=
  (ts.filter fun t => ¬ t.Closed).map Branch.ofLiterals

/-- The branch of a term, unless some literal of it would close the branch. -/
def Term.branch? (t : Term) : Option Branch := t.foldlM Branch.insert? ∅

open Branch

namespace Term

theorem exists_branch?_within {t : Term} {v : Valuation} :
    (∃ c, t.branch? = some c ∧ c.Within v) ↔ ∀ l ∈ t, v.Satisfies l := by
  rw [branch?, exists_foldlM_insert?_within]
  exact and_iff_right (within_empty v)

/-- The literals on the branch of a term are those of the term. -/
theorem satisfies_of_branch?_eq_some {t : Term} {c : Branch} (hc : t.branch? = some c) :
    ∀ l ∈ t, c.value.Satisfies l :=
  exists_branch?_within.1 ⟨c, hc, within_value c⟩

/-- The sign that a term gives to an atom; where it gives both, the positive
one. -/
def valuation (t : Term) : Valuation := fun a =>
  if ⟨a, true⟩ ∈ t then some true else if ⟨a, false⟩ ∈ t then some false else none

theorem valuation_satisfies {t : Term} (hopen : ¬ t.Closed) : ∀ l ∈ t, t.valuation.Satisfies l := by
  rintro ⟨a, sign⟩ hl
  change t.valuation a = some sign
  unfold valuation
  cases sign with
  | true => rw [if_pos hl]
  | false =>
    have hpositive : (⟨a, true⟩ : Literal) ∉ t := by
      intro hl'
      exact hopen ⟨_, hl', hl⟩
    rw [if_neg hpositive, if_pos hl]

theorem branch?_eq_none_iff {t : Term} : t.branch? = none ↔ t.Closed := by
  constructor
  · intro hnone
    apply Decidable.byContradiction
    intro hopen
    obtain ⟨c, hc, -⟩ := exists_branch?_within.2 (valuation_satisfies hopen)
    rw [hnone] at hc
    cases hc
  · rintro ⟨l, hl, hnegate⟩
    cases hc : t.branch? with
    | none => rfl
    | some c =>
      have hpositive : c.value l.atom = some l.sign := satisfies_of_branch?_eq_some hc l hl
      have hnegative : c.value l.atom = some !l.sign :=
        satisfies_of_branch?_eq_some hc l.negate hnegate
      rw [hpositive] at hnegative
      simp at hnegative

/-- As long as no insertion fails, none is dropped. -/
theorem foldl_insert?_of_foldlM_eq_some {literals : List Literal} {b c : Branch}
    (hc : literals.foldlM insert? b = some c) :
    literals.foldl (fun b l => (b.insert? l).getD b) b = c := by
  induction literals generalizing b with
  | nil => exact Option.some.inj hc
  | cons l literals ih =>
    rw [List.foldlM_cons] at hc
    obtain ⟨d, hd, hrest⟩ := Option.bind_eq_some_iff.1 hc
    rw [List.foldl_cons, hd]
    exact ih hrest

theorem ofLiterals_of_branch?_eq_some {t : Term} {c : Branch} (hc : t.branch? = some c) :
    ofLiterals t = c :=
  foldl_insert?_of_foldlM_eq_some hc

/-- The branch of two joined terms is the merge of their branches. -/
theorem branch?_append (s t : Term) :
    branch? (s ++ t) = s.branch?.bind fun a => t.branch?.bind a.merge? := by
  -- A merge inserts the smaller branch into the larger, so the two sides insert in different
  -- orders.  They are compared by the valuations that contain them.
  apply eq_of_forall_within
  intro v
  change _ ↔ ∃ c, join? s.branch? t.branch? = some c ∧ c.Within v
  rw [exists_join?_within, exists_branch?_within, exists_branch?_within, exists_branch?_within]
  simp only [List.mem_append, or_imp, forall_and]

end Term

namespace Dnf

theorem openBranches_eq_filterMap (ts : Dnf) : ts.openBranches = ts.filterMap Term.branch? := by
  induction ts with
  | nil => rfl
  | cons t ts ih =>
    rw [List.filterMap_cons, ← ih, openBranches, List.filter_cons]
    cases hc : t.branch? with
    | none =>
      have hclosed : t.Closed := Term.branch?_eq_none_iff.1 hc
      rw [if_neg (by simpa using hclosed)]
      rfl
    | some c =>
      have hopen : ¬ t.Closed := by
        intro hclosed
        rw [Term.branch?_eq_none_iff.2 hclosed] at hc
        cases hc
      rw [if_pos (by simpa using hopen), List.map_cons, Term.ofLiterals_of_branch?_eq_some hc]
      rfl

theorem openBranches_append (left right : Dnf) :
    openBranches (left ++ right) = left.openBranches ++ right.openBranches := by
  simp only [openBranches, List.filter_append, List.map_append]

theorem openBranches_flatMap {α : Type} (f : α → Dnf) (items : List α) :
    openBranches (items.flatMap f) = items.flatMap fun x => (f x).openBranches := by
  simp only [openBranches_eq_filterMap, List.filterMap_flatMap]

theorem openBranches_eq_nil_iff {ts : Dnf} : ts.openBranches = [] ↔ ∀ t ∈ ts, t.Closed := by
  rw [openBranches, List.map_eq_nil_iff, List.filter_eq_nil_iff]
  simp only [decide_not, Bool.not_eq_true', decide_eq_false_iff_not, not_not]

/-- Closed terms may be struck before or after a distribution. -/
theorem openBranches_product (left right : Dnf) :
    openBranches (product left right) = Branch.product left.openBranches right.openBranches := by
  simp only [openBranches_eq_filterMap]
  induction left with
  | nil => rfl
  | cons s left ih =>
    have hcons : product (s :: left) right = right.map (fun t => s ++ t) ++ product left right :=
      List.flatMap_cons
    rw [hcons, List.filterMap_append, ih, List.filterMap_map, List.filterMap_cons]
    simp only [Function.comp_def, Term.branch?_append]
    cases s.branch? with
    | none => simp
    | some a =>
      have hmerge : right.filterMap (fun t => t.branch?.bind a.merge?) =
          (right.filterMap Term.branch?).filterMap a.merge? := by
        rw [List.filterMap_filterMap]
      change right.filterMap (fun t => t.branch?.bind a.merge?) ++ _ = _
      rw [hmerge]
      rfl

/-- The same for any number of lists, whichever of the two searches stops
early. -/
theorem openBranches_conjoin {α : Type} {f : α → Dnf} {g : α → List Branch} {items : List α}
    (h : ∀ x ∈ items, (f x).openBranches = g x) :
    openBranches (conjoin (items.map fun x => Thunk.mk fun _ => f x)) =
      Branch.conjoin (items.map fun x => Thunk.mk fun _ => g x) := by
  -- Stated for any terms found so far, as each step of the fold replaces them.
  have hfrom (found : Dnf) :
      openBranches (conjoinFrom found (items.map fun x => Thunk.mk fun _ => f x)) =
        Branch.conjoinFrom found.openBranches (items.map fun x => Thunk.mk fun _ => g x) := by
    rw [conjoinFrom_eq_foldl, Branch.conjoinFrom_eq_foldl]
    induction items generalizing found with
    | nil => rfl
    | cons x items ih =>
      rw [List.forall_mem_cons] at h
      rw [List.map_cons, List.map_cons, List.foldl_cons, List.foldl_cons, ih h.2,
        openBranches_product]
      change List.foldl _ (Branch.product found.openBranches (f x).openBranches) _ = _
      rw [h.1]
      rfl
  exact hfrom [[]]

end Dnf

namespace Formula

/-- The tableau lists the open terms of the normal form, for both signs. -/
theorem tableau_eq_openBranches (f : Formula) (sign : Bool) :
    f.tableau sign = (f.terms sign).openBranches := by
  induction f generalizing sign with
  | atom a =>
    rw [tableau, terms, Dnf.openBranches_eq_filterMap]
    rfl
  | neg f ih => rw [tableau, terms, ih]
  | conj fs ih =>
    rw [tableau, terms]
    cases sign with
    | true =>
      rw [if_pos rfl, if_pos rfl]
      exact (Dnf.openBranches_conjoin fun f hf => (ih f hf true).symm).symm
    | false =>
      rw [if_neg (by decide), if_neg (by decide), Dnf.openBranches_flatMap]
      exact List.flatMap_congr fun f hf => ih f hf false
  | disj fs ih =>
    rw [tableau, terms]
    cases sign with
    | true =>
      rw [if_pos rfl, if_pos rfl, Dnf.openBranches_flatMap]
      exact List.flatMap_congr fun f hf => ih f hf true
    | false =>
      rw [if_neg (by decide), if_neg (by decide)]
      exact (Dnf.openBranches_conjoin fun f hf => (ih f hf false).symm).symm
  | imp f g ihf ihg =>
    rw [tableau, terms]
    cases sign with
    | true => rw [if_pos rfl, if_pos rfl, Dnf.openBranches_append, ihf, ihg]
    | false =>
      rw [if_neg (by decide), if_neg (by decide), Dnf.conjoin_pair, Dnf.openBranches_product,
        ihf, ihg]
  | iff f g ihf ihg =>
    rw [tableau, terms, Dnf.conjoin_pair, Dnf.conjoin_pair, Dnf.openBranches_append,
      Dnf.openBranches_product, Dnf.openBranches_product, ihf, ihf, ihg, ihg]

/-- Formulas with the same terms have the same tableau. -/
theorem tableau_congr {f g : Formula} {s t : Bool} (h : f.terms s = g.terms t) :
    f.tableau s = g.tableau t := by
  rw [tableau_eq_openBranches, tableau_eq_openBranches, h]

/-- The branches are the open terms of the normal form, in order and with
repetitions, and a normal form has the branches of the formula it is made
from. -/
theorem branches_eq_openBranches_toDnf (f : Formula) :
    f.toDnf.terms?.map Dnf.openBranches = some f.branches ∧
      f.negatedDnf.terms?.map Dnf.openBranches = some f.negatedBranches ∧
      f.toDnf.branches = f.branches ∧ f.negatedDnf.branches = f.negatedBranches := by
  have hpositive : f.branches = (f.terms true).openBranches := tableau_eq_openBranches f true
  have hnegative : f.negatedBranches = (f.terms false).openBranches :=
    tableau_eq_openBranches f false
  have hpacked (ts : Dnf) : (ofTerms ts).branches = ts.openBranches := by
    rw [branches, tableau_eq_openBranches, terms_ofTerms]
  refine ⟨?_, ?_, ?_, ?_⟩
  · rw [toDnf_eq_ofTerms, terms?_ofTerms, hpositive]
    rfl
  · rw [negatedDnf_eq_ofTerms, terms?_ofTerms, hnegative]
    rfl
  · rw [toDnf_eq_ofTerms, hpacked, hpositive]
  · rw [negatedDnf_eq_ofTerms, hpacked, hnegative]

end Formula

end Subsumption
