import Subsumption.Proofs.Taxonomy.Consistency
/-!
Exactness of the closures.  Whatever a search has reached and examined has had its
neighbours added, so once nothing is pending the atoms reached are closed under edges,
and nothing else was ever added.
-/

namespace Subsumption

namespace Taxonomy

open Relation

/-- The second atom is recorded as a neighbour of the first. -/
def Adjacent (t : Taxonomy) (side : Side) (a b : Atom) : Prop :=
  b ∈ side (t.elements[a]?.getD {})

/-- The second atom is a parent of the first. -/
def Edge (t : Taxonomy) (child parent : Atom) : Prop := parent ∈ t.parents child

instance (t : Taxonomy) (child parent : Atom) : Decidable (t.Edge child parent) :=
  inferInstanceAs (Decidable (parent ∈ t.parents child))

variable {t : Taxonomy} {side : Side} {reached : AtomSet} {pending : List Atom} {a b : Atom}

theorem adjacent_iff {e : Element} (he : t.elements[a]? = some e) :
    t.Adjacent side a b ↔ b ∈ side e := by
  rw [Adjacent, he]
  rfl

/-- The edges in order of child and then of parent, each a pair of the two. -/
def edgeList (t : Taxonomy) : List (Atom × Atom) :=
  t.elements.toList.flatMap fun (child, e) => e.parents.toList.map fun parent => (child, parent)

theorem mem_edgeList : (a, b) ∈ t.edgeList ↔ t.Edge a b := by
  simp only [edgeList, List.mem_flatMap, List.mem_map, Prod.mk.injEq]
  constructor
  · rintro ⟨⟨child, e⟩, hentry, parent, hparent, rfl, rfl⟩
    have he : t.elements[child]? = some e := Std.ExtTreeMap.mem_toList_iff_getElem?_eq_some.1 hentry
    exact (adjacent_iff he).2 (Std.ExtTreeSet.mem_toList.1 hparent)
  · intro hedge
    obtain ⟨e, he⟩ := mem_iff.1 (mem_of_mem_parents hedge)
    refine ⟨(a, e), Std.ExtTreeMap.mem_toList_iff_getElem?_eq_some.2 he, b, ?_, rfl, rfl⟩
    exact Std.ExtTreeSet.mem_toList.2 ((adjacent_iff he).1 hedge)

/-- What holds between two examinations of a search. -/
structure Searched (t : Taxonomy) (side : Side) (reached : AtomSet) (pending : List Atom) :
    Prop where
  mem_of_reached : ∀ a, a ∈ reached → a ∈ t
  reached_of_pending : ∀ a, a ∈ pending → a ∈ reached
  reached_of_adjacent : ∀ a, a ∈ reached → a ∉ pending → ∀ b, t.Adjacent side a b → b ∈ reached

/-- A search starts in order, with the neighbours of an element. -/
theorem Searched.start (hside : ∀ a b, t.Adjacent side a b → b ∈ t) {e : Element}
    (he : t.elements[a]? = some e) : t.Searched side (side e) (side e).toList where
  mem_of_reached b hb := hside a b ((adjacent_iff he).2 hb)
  reached_of_pending _ hb := Std.ExtTreeSet.mem_toList.1 hb
  reached_of_adjacent _ hb hnone := absurd (Std.ExtTreeSet.mem_toList.2 hb) hnone

/-- Examining a pending atom keeps the search in order. -/
theorem Searched.examine (hside : ∀ a b, t.Adjacent side a b → b ∈ t) {e : Element}
    (h : t.Searched side reached (a :: pending)) (he : t.elements[a]? = some e) :
    t.Searched side (reached ∪ (side e \ reached)) ((side e \ reached).toList ++ pending) where
  mem_of_reached b hb := by
    rcases Std.ExtTreeSet.mem_union_iff.1 hb with hold | hnew
    · exact h.mem_of_reached b hold
    · exact hside a b ((adjacent_iff he).2 (Std.ExtTreeSet.mem_diff_iff.1 hnew).1)
  reached_of_pending b hb := by
    rcases List.mem_append.1 hb with hnew | hold
    · exact Std.ExtTreeSet.mem_union_iff.2 (Or.inr (Std.ExtTreeSet.mem_toList.1 hnew))
    · have hreached := h.reached_of_pending b (List.mem_cons_of_mem a hold)
      exact Std.ExtTreeSet.mem_union_iff.2 (Or.inl hreached)
  reached_of_adjacent b hb hnone c hc := by
    simp only [List.mem_append, Std.ExtTreeSet.mem_toList, not_or] at hnone
    obtain ⟨hnew, hpending⟩ := hnone
    have hold : b ∈ reached := (Std.ExtTreeSet.mem_union_iff.1 hb).resolve_right hnew
    rw [Std.ExtTreeSet.mem_union_iff, Std.ExtTreeSet.mem_diff_iff]
    by_cases hreached : c ∈ reached
    · exact Or.inl hreached
    · -- The neighbours of every other atom were there before, so `b` is the one examined.
      have hba : b = a := by
        apply Decidable.byContradiction
        intro hne
        apply hreached
        exact h.reached_of_adjacent b hold (by simp [hne, hpending]) c hc
      subst hba
      exact Or.inr ⟨(adjacent_iff he).1 hc, hreached⟩

/-- With nothing pending, the atoms reached are closed under edges. -/
theorem Searched.reached_of_reflTransGen (h : t.Searched side reached []) (ha : a ∈ reached)
    (hpath : ReflTransGen (t.Adjacent side) a b) : b ∈ reached := by
  induction hpath with
  | refl => exact ha
  | tail _ hstep ih => exact h.reached_of_adjacent _ ih List.not_mem_nil _ hstep

/-- Adding the neighbours of an atom that is reached adds nothing to what can be
reached. -/
theorem exists_path_union_iff {e : Element} (he : t.elements[a]? = some e) (ha : a ∈ reached) :
    (∃ c ∈ reached ∪ (side e \ reached), ReflTransGen (t.Adjacent side) c b) ↔
      ∃ c ∈ reached, ReflTransGen (t.Adjacent side) c b := by
  constructor
  · rintro ⟨c, hc, hpath⟩
    rcases Std.ExtTreeSet.mem_union_iff.1 hc with hold | hnew
    · exact ⟨c, hold, hpath⟩
    · have hstep : t.Adjacent side a c :=
        (adjacent_iff he).2 (Std.ExtTreeSet.mem_diff_iff.1 hnew).1
      exact ⟨a, ha, hpath.head hstep⟩
  · rintro ⟨c, hc, hpath⟩
    exact ⟨c, Std.ExtTreeSet.mem_union_iff.2 (Or.inl hc), hpath⟩

/-- A search that is in order ends with what can be reached from the atoms it
has reached already. -/
theorem Searched.exists_closure (hside : ∀ a b, t.Adjacent side a b → b ∈ t)
    (h : t.Searched side reached pending) :
    ∃ s, t.closure side reached pending = .ok s ∧
      ∀ b, b ∈ s ↔ ∃ a ∈ reached, ReflTransGen (t.Adjacent side) a b := by
  fun_induction closure t side reached pending with
  | case1 reached =>
    refine ⟨reached, rfl, ?_⟩
    intro b
    constructor
    · intro hb
      exact ⟨b, hb, .refl⟩
    · rintro ⟨a, ha, hpath⟩
      exact h.reached_of_reflTransGen ha hpath
  | case2 reached a pending hnone =>
    have ha : a ∈ t := h.mem_of_reached a (h.reached_of_pending a List.mem_cons_self)
    obtain ⟨e, he⟩ := mem_iff.1 ha
    rw [hnone] at he
    cases he
  | case3 reached a pending e he new ih =>
    obtain ⟨s, hs, hmem⟩ := ih (h.examine hside he)
    have ha : a ∈ reached := h.reached_of_pending a List.mem_cons_self
    refine ⟨s, hs, ?_⟩
    intro b
    rw [hmem b, exists_path_union_iff he ha]

/-- From an element a search finds what is one edge or more away. -/
theorem exists_reach (side : Side) (hside : ∀ a b, t.Adjacent side a b → b ∈ t) (ha : a ∈ t) :
    ∃ s, t.reach side a = .ok s ∧ ∀ b, b ∈ s ↔ TransGen (t.Adjacent side) a b := by
  obtain ⟨e, he⟩ := mem_iff.1 ha
  obtain ⟨s, hs, hmem⟩ := (Searched.start hside he).exists_closure hside
  refine ⟨s, ?_, ?_⟩
  · rw [reach, element_eq_ok_iff.2 he]
    exact hs
  · intro b
    rw [hmem b, TransGen.head'_iff]
    exact exists_congr fun c => and_congr_left fun _ => (adjacent_iff he).symm

theorem reach_of_not_mem (side : Side) (ha : a ∉ t) : t.reach side a = .error (.notFound a) := by
  rw [reach, element_eq_error_iff.2 ⟨ha, rfl⟩]
  rfl

/-- A search fails for want of its first atom only. -/
theorem reach_eq_error_iff (hside : ∀ a b, t.Adjacent side a b → b ∈ t) {x : TaxonomyError} :
    t.reach side a = .error x ↔ a ∉ t ∧ x = .notFound a := by
  by_cases ha : a ∈ t
  · obtain ⟨s, hs, -⟩ := exists_reach side hside ha
    simp [hs, ha]
  · simp [reach_of_not_mem side ha, ha, eq_comm]

namespace Consistent

theorem mem_of_edge (h : t.Consistent) (hedge : t.Edge a b) : a ∈ t ∧ b ∈ t :=
  ⟨mem_of_mem_parents hedge, h.mem_of_parent a b hedge⟩

/-- The ancestors of an element are what it reaches along the edges. -/
theorem exists_ancestors (h : t.Consistent) (ha : a ∈ t) :
    ∃ s, t.ancestors a = .ok s ∧ ∀ b, b ∈ s ↔ TransGen t.Edge a b :=
  exists_reach Element.parents h.mem_of_parent ha

/-- One atom reaches another along the edges exactly when it is an element with
the other among its ancestors. -/
theorem transGen_iff_mem_ancestors (h : t.Consistent) :
    TransGen t.Edge a b ↔ a ∈ t ∧ ∃ s, t.ancestors a = .ok s ∧ b ∈ s := by
  constructor
  · intro hpath
    obtain ⟨c, hedge, -⟩ := TransGen.head'_iff.1 hpath
    have ha : a ∈ t := (h.mem_of_edge hedge).1
    obtain ⟨s, hs, hmem⟩ := h.exists_ancestors ha
    exact ⟨ha, s, hs, (hmem b).2 hpath⟩
  · rintro ⟨ha, s, hs, hb⟩
    obtain ⟨s', hs', hmem⟩ := h.exists_ancestors ha
    obtain rfl : s = s' := Except.ok.inj (hs.symm.trans hs')
    exact (hmem b).1 hb

/-- The descendants of an element are what reaches it along the edges. -/
theorem exists_descendants (h : t.Consistent) (ha : a ∈ t) :
    ∃ s, t.descendants a = .ok s ∧ ∀ b, b ∈ s ↔ TransGen t.Edge b a := by
  obtain ⟨s, hs, hmem⟩ := exists_reach Element.children h.mem_of_child ha
  have hswap : t.Adjacent Element.children = Function.swap t.Edge := by
    funext x y
    exact propext (h.child_iff_parent x y)
  refine ⟨s, hs, ?_⟩
  intro b
  rw [hmem b, hswap, transGen_swap]

/-- The test for a cycle finds whether the child can be reached from the
parent, by no edge or by more. -/
theorem exists_closesCycle (h : t.Consistent) {parent : Atom} (child : Atom)
    (hparent : parent ∈ t) :
    ∃ closes, t.closesCycle parent child = .ok closes ∧
      (closes = true ↔ ReflTransGen t.Edge parent child) := by
  rw [closesCycle, reflTransGen_iff_eq_or_transGen]
  by_cases hsame : parent = child
  · refine ⟨true, ?_, ?_⟩
    · rw [if_pos hsame]
      rfl
    · simp [hsame]
  · obtain ⟨s, hs, hmem⟩ := h.exists_ancestors hparent
    refine ⟨s.contains child, ?_, ?_⟩
    · rw [if_neg hsame, hs]
      rfl
    · rw [Std.ExtTreeSet.contains_iff_mem, hmem child, or_iff_right (Ne.symm hsame)]

end Consistent

end Taxonomy

end Subsumption
