import Subsumption.Proofs.Taxonomy.Forcing
/-!
The result of inference, a list of literals in strict order.  It does not depend on
the order of the conjuncts or on their repetition, and nothing more is inferred from
it.
-/

namespace Subsumption

open Relation

/-- The literals are those with the property, in order and each once. -/
structure Enumerates (literals : List Literal) (property : Literal → Prop) : Prop where
  strict : literals.Pairwise (· < ·)
  mem_iff : ∀ l, l ∈ literals ↔ property l

theorem Enumerates.nodup {literals : List Literal} {property : Literal → Prop}
    (h : Enumerates literals property) : literals.Nodup := by
  apply h.strict.imp
  rintro l _ hlt rfl
  exact Literal.lt_asymm hlt hlt

/-- Literals in strict order are known by their members. -/
theorem Enumerates.eq {literals literals' : List Literal} {property : Literal → Prop}
    (h : Enumerates literals property) (h' : Enumerates literals' property) :
    literals = literals' := by
  have hmem (l : Literal) : l ∈ literals ↔ l ∈ literals' := (h.mem_iff l).trans (h'.mem_iff l).symm
  have hperm : literals.Perm literals' := (List.perm_ext_iff_of_nodup h.nodup h'.nodup).2 hmem
  apply hperm.eq_of_pairwise ?_ h.strict h'.strict
  intro l m _ _ hlm hml
  exact absurd hml (Literal.lt_asymm hlm)

/-- The formula joined with some literals, if there are any. -/
def Formula.withLiterals (f : Formula) (literals : List Literal) : Formula :=
  if literals = [] then f else .conj [f, .conj (literals.map .ofLiteral)]

namespace Taxonomy

open Formula

/-- The literals that follow from a formula: each true element among the immediate
conjuncts of a conjunction makes true what is found above it, and each false one
makes false what is found below it. -/
inductive Forces (t : Taxonomy) : Formula → Literal → Prop
  | above {conjuncts : List Formula} {a b : Atom} : a ∈ t → atom a ∈ conjuncts →
      TransGen (t.Adjacent Element.parents) a b → Forces t (conj conjuncts) ⟨b, true⟩
  | below {conjuncts : List Formula} {a b : Atom} : a ∈ t → neg (atom a) ∈ conjuncts →
      TransGen (t.Adjacent Element.children) a b → Forces t (conj conjuncts) ⟨b, false⟩

variable {t : Taxonomy} {f : Formula} {conjuncts conjuncts' : List Formula}
  {literals : List Literal} {l : Literal}

/-- Neither the order of the conjuncts nor their repetition matters. -/
theorem Forces.of_mem (h : t.Forces (conj conjuncts) l)
    (hmem : ∀ g ∈ conjuncts, g ∈ conjuncts') : t.Forces (conj conjuncts') l := by
  cases h with
  | above ha hconjunct hpath => exact .above ha (hmem _ hconjunct) hpath
  | below ha hconjunct hpath => exact .below ha (hmem _ hconjunct) hpath

theorem Forces.exists_eq_conj (h : t.Forces f l) : ∃ conjuncts, f = conj conjuncts := by
  cases h with
  | above => exact ⟨_, rfl⟩
  | below => exact ⟨_, rfl⟩

/-- Nothing follows from a pair of conjunctions. -/
theorem not_forces_conj_pair {gs gs' : List Formula} :
    ¬ t.Forces (conj [conj gs, conj gs']) l := by
  intro h
  cases h with
  | above _ hconjunct _ => simp at hconjunct
  | below _ hconjunct _ => simp at hconjunct

namespace Consistent

/-- The search for what a conjunct forces is a walk along the recorded edges. -/
theorem mem_inferred_iff_forces (h : t.Consistent) :
    l ∈ t.inferred conjuncts ↔ t.Forces (conj conjuncts) l := by
  have hdown : t.Carries false = t.Adjacent Element.children := by
    funext parent child
    exact propext (h.child_iff_parent parent child).symm
  obtain ⟨b, sign⟩ := l
  rw [mem_inferred_iff]
  constructor
  · rintro ⟨⟨a, sign'⟩, hconjunct, hforced⟩
    obtain ⟨hsign, hpath⟩ := h.mem_forced_iff.1 hforced
    obtain ⟨c, hcarries, -⟩ := TransGen.head'_iff.1 hpath
    have ha : a ∈ t := h.mem_of_carries hcarries
    change sign = sign' at hsign
    subst hsign
    cases sign with
    | true => exact .above ha hconjunct hpath
    | false => exact .below ha hconjunct (hdown ▸ hpath)
  · intro hforces
    cases hforces with
    | @above _ a _ _ hconjunct hpath =>
      exact ⟨⟨a, true⟩, hconjunct, h.mem_forced_iff.2 ⟨rfl, hpath⟩⟩
    | @below _ a _ _ hconjunct hpath =>
      rw [← hdown] at hpath
      exact ⟨⟨a, false⟩, hconjunct, h.mem_forced_iff.2 ⟨rfl, hpath⟩⟩

theorem enumerates_inferred (h : t.Consistent) (conjuncts : List Formula) :
    Enumerates (t.inferred conjuncts).toList (t.Forces (conj conjuncts)) where
  strict := Std.ExtTreeSet.ordered_toList.imp Literal.compare_eq_lt.1
  mem_iff _ := Std.ExtTreeSet.mem_toList.trans h.mem_inferred_iff_forces

theorem exists_inferFrom_eq (h : t.Consistent) (f : Formula) :
    ∃ literals, Enumerates literals (t.Forces f) ∧ t.inferFrom f = f.withLiterals literals := by
  cases f with
  | conj conjuncts =>
    refine ⟨_, h.enumerates_inferred conjuncts, ?_⟩
    simp [inferFrom, withLiterals]
  | _ =>
    refine ⟨[], ⟨.nil, ?_⟩, rfl⟩
    intro l
    exact iff_of_false List.not_mem_nil nofun

/-- The literals that follow from a formula are all that is joined to it. -/
theorem inferFrom_eq (h : t.Consistent) (hlist : Enumerates literals (t.Forces f)) :
    t.inferFrom f = f.withLiterals literals := by
  obtain ⟨literals', hlist', hresult⟩ := h.exists_inferFrom_eq f
  rw [hresult, hlist'.eq hlist]

/-- Nothing more is inferred from a result of inference. -/
theorem inferFrom_withLiterals (h : t.Consistent) (hlist : Enumerates literals (t.Forces f)) :
    t.inferFrom (f.withLiterals literals) = f.withLiterals literals := by
  by_cases hnone : literals = []
  · subst hnone
    exact h.inferFrom_eq hlist
  · obtain ⟨l, hl⟩ := List.exists_mem_of_ne_nil literals hnone
    obtain ⟨conjuncts, rfl⟩ := ((hlist.mem_iff l).1 hl).exists_eq_conj
    have hempty : Enumerates [] (t.Forces (conj [conj conjuncts, conj (literals.map ofLiteral)])) :=
      ⟨.nil, fun _ => iff_of_false List.not_mem_nil not_forces_conj_pair⟩
    rw [withLiterals, if_neg hnone]
    exact h.inferFrom_eq hempty

end Consistent

/-- Inference joins to a formula exactly the literals that follow from it, in
order and each once, or leaves it as it is if there are none.  The literals are
the same for any conjuncts that are the same but for order and repetition, and
inferring a second time changes nothing. -/
theorem Reachable.inferFrom_exact (h : t.Reachable) (f : Formula) :
    ∃ literals, Enumerates literals (t.Forces f) ∧ t.inferFrom f = f.withLiterals literals ∧
      (∀ conjuncts conjuncts', f = conj conjuncts → (∀ g, g ∈ conjuncts' ↔ g ∈ conjuncts) →
        t.inferFrom (conj conjuncts') = (conj conjuncts').withLiterals literals) ∧
      t.inferFrom (t.inferFrom f) = t.inferFrom f := by
  have hconsistent : t.Consistent := .of_reachable h
  obtain ⟨literals, hlist, hresult⟩ := hconsistent.exists_inferFrom_eq f
  refine ⟨literals, hlist, hresult, ?_, ?_⟩
  · rintro conjuncts conjuncts' rfl hmem
    apply hconsistent.inferFrom_eq
    refine ⟨hlist.strict, ?_⟩
    intro l
    rw [hlist.mem_iff]
    constructor
    · exact fun hforces => hforces.of_mem fun g => (hmem g).2
    · exact fun hforces => hforces.of_mem fun g => (hmem g).1
  · rw [hresult, hconsistent.inferFrom_withLiterals hlist]

/-- A true and a false element of the tangle force both signs of the true one and
of a third.  An atom that is no element is passed over, and a repeated conjunct
adds nothing. -/
theorem inferFrom_exact_tangle :
    tangle.Reachable ∧
      tangle.inferFrom (conj [atom ⟨"p"⟩, atom ⟨"s"⟩, neg (atom ⟨"r"⟩), atom ⟨"p"⟩]) =
        (conj [atom ⟨"p"⟩, atom ⟨"s"⟩, neg (atom ⟨"r"⟩), atom ⟨"p"⟩]).withLiterals
          [⟨⟨"p"⟩, false⟩, ⟨⟨"p"⟩, true⟩, ⟨⟨"q"⟩, false⟩, ⟨⟨"q"⟩, true⟩, ⟨⟨"r"⟩, true⟩] := by
  have hconsistent : tangle.Consistent := .of_reachable reachable_tangle
  have hinferred : (tangle.inferred [neg (atom ⟨"r"⟩), atom ⟨"s"⟩, atom ⟨"p"⟩]).toList =
      [⟨⟨"p"⟩, false⟩, ⟨⟨"p"⟩, true⟩, ⟨⟨"q"⟩, false⟩, ⟨⟨"q"⟩, true⟩, ⟨⟨"r"⟩, true⟩] := by
    decide +kernel
  obtain ⟨literals, hlist, -, hsame, -⟩ := Reachable.inferFrom_exact reachable_tangle
    (conj [neg (atom ⟨"r"⟩), atom ⟨"s"⟩, atom ⟨"p"⟩])
  refine ⟨reachable_tangle, ?_⟩
  rw [← hinferred, ← hlist.eq (hconsistent.enumerates_inferred _)]
  apply hsame _ _ rfl
  intro g
  simp only [List.mem_cons, List.not_mem_nil, or_false]
  grind

end Taxonomy

end Subsumption
