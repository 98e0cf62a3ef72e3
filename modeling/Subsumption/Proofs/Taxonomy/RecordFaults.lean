import Subsumption.Proofs.Taxonomy.EdgeLists
/-!
Reading a record, and what an error says of it.  The search finds no defect exactly
when the recorded elements are a consistent taxonomy, and building it anew ends with
those elements unless an edge is refused.
-/

namespace Subsumption

open Relation

namespace Record

/-- The elements and the policy as they are recorded, checked for nothing. -/
def unchecked (r : Record) : Taxonomy := { policy := r.policy, elements := r.elements }

/-- The errors that are true of the record: a neighbour of an element is none,
two elements have an edge noted at one end only, or, where cycles are rejected
and nothing else is wrong, an edge lies on a cycle. -/
inductive Fault (r : Record) : TaxonomyError → Prop
  | notFound {a b : Atom} : b ∈ r.unchecked.children a ∨ b ∈ r.unchecked.parents a →
      b ∉ r.elements → Fault r (.notFound b)
  | onlyAtParent {parent child : Atom} : parent ∈ r.elements → child ∈ r.elements →
      child ∈ r.unchecked.children parent → parent ∉ r.unchecked.parents child →
      Fault r (.oneSidedEdge parent child)
  | onlyAtChild {parent child : Atom} : parent ∈ r.elements → child ∈ r.elements →
      parent ∈ r.unchecked.parents child → child ∉ r.unchecked.children parent →
      Fault r (.oneSidedEdge parent child)
  | cycle {parent child : Atom} : r.policy = .reject → r.unchecked.Consistent →
      r.unchecked.Edge child parent → ReflTransGen r.unchecked.Edge parent child →
      Fault r (.cycle parent child)

variable {r : Record} {t : Taxonomy} {a b parent child : Atom} {x : TaxonomyError}

theorem childDefect?_eq : r.childDefect? parent child =
    if child ∈ r.elements then
      if parent ∈ r.unchecked.parents child then none else some (.oneSidedEdge parent child)
    else some (.notFound child) := by
  unfold childDefect? Taxonomy.parents unchecked
  cases he : r.elements[child]? with
  | none => simp [Std.ExtTreeMap.mem_iff_isSome_getElem?, he]
  | some e => simp [Std.ExtTreeMap.mem_iff_isSome_getElem?, he]

theorem parentDefect?_eq : r.parentDefect? child parent =
    if parent ∈ r.elements then
      if child ∈ r.unchecked.children parent then none else some (.oneSidedEdge parent child)
    else some (.notFound parent) := by
  unfold parentDefect? Taxonomy.children unchecked
  cases he : r.elements[parent]? with
  | none => simp [Std.ExtTreeMap.mem_iff_isSome_getElem?, he]
  | some e => simp [Std.ExtTreeMap.mem_iff_isSome_getElem?, he]

theorem childDefect?_eq_none_iff :
    r.childDefect? parent child = none ↔ parent ∈ r.unchecked.parents child := by
  have hmem : parent ∈ r.unchecked.parents child → child ∈ r.elements :=
    Taxonomy.mem_of_mem_parents
  rw [childDefect?_eq]
  split
  · simp
  · next hchild => simp [mt hmem hchild]

theorem parentDefect?_eq_none_iff :
    r.parentDefect? child parent = none ↔ child ∈ r.unchecked.children parent := by
  have hmem : child ∈ r.unchecked.children parent → parent ∈ r.elements :=
    Taxonomy.mem_of_mem_children
  rw [parentDefect?_eq]
  split
  · simp
  · next hparent => simp [mt hmem hparent]

theorem fault_of_childDefect? (hnoted : child ∈ r.unchecked.children parent)
    (hdefect : r.childDefect? parent child = some x) : r.Fault x := by
  have hparent : parent ∈ r.elements := Taxonomy.mem_of_mem_children hnoted
  rw [childDefect?_eq] at hdefect
  split at hdefect
  · next hchild =>
    split at hdefect
    · cases hdefect
    · next hother =>
      cases hdefect
      exact .onlyAtParent hparent hchild hnoted hother
  · next hchild =>
    cases hdefect
    exact .notFound (Or.inl hnoted) hchild

theorem fault_of_parentDefect? (hnoted : parent ∈ r.unchecked.parents child)
    (hdefect : r.parentDefect? child parent = some x) : r.Fault x := by
  have hchild : child ∈ r.elements := Taxonomy.mem_of_mem_parents hnoted
  rw [parentDefect?_eq] at hdefect
  split at hdefect
  · next hparent =>
    split at hdefect
    · cases hdefect
    · next hother =>
      cases hdefect
      exact .onlyAtChild hparent hchild hnoted hother
  · next hparent =>
    cases hdefect
    exact .notFound (Or.inr hnoted) hparent

/-- The search passes over the notes of every element at both ends. -/
theorem exists_noted_of_defect?_eq_some (h : r.defect? = some x) :
    (∃ parent child, child ∈ r.unchecked.children parent ∧
        r.childDefect? parent child = some x) ∨
      ∃ child parent, parent ∈ r.unchecked.parents child ∧
        r.parentDefect? child parent = some x := by
  obtain ⟨⟨a, e⟩, hentry, hfound⟩ := List.exists_of_findSome?_eq_some h
  have he : r.unchecked.elements[a]? = some e :=
    Std.ExtTreeMap.mem_toList_iff_getElem?_eq_some.1 hentry
  dsimp only at hfound
  rw [Option.orElse_eq_orElse, Option.orElse_eq_or, Option.or_eq_some_iff] at hfound
  rcases hfound with hchildren | ⟨-, hparents⟩
  · left
    obtain ⟨b, hb, hdefect⟩ := List.exists_of_findSome?_eq_some hchildren
    exact ⟨a, b, (Taxonomy.adjacent_iff he).2 (Std.ExtTreeSet.mem_toList.1 hb), hdefect⟩
  · right
    obtain ⟨b, hb, hdefect⟩ := List.exists_of_findSome?_eq_some hparents
    exact ⟨a, b, (Taxonomy.adjacent_iff he).2 (Std.ExtTreeSet.mem_toList.1 hb), hdefect⟩

theorem eq_none_of_defect?_eq_none (h : r.defect? = none) {e : Element}
    (he : r.elements[a]? = some e) :
    (∀ b ∈ e.children, r.childDefect? a b = none) ∧
      ∀ b ∈ e.parents, r.parentDefect? a b = none := by
  have hentry := List.findSome?_eq_none_iff.1 h (a, e)
    (Std.ExtTreeMap.mem_toList_iff_getElem?_eq_some.2 he)
  dsimp only at hentry
  rw [Option.orElse_eq_orElse, Option.orElse_eq_or, Option.or_eq_none_iff,
    List.findSome?_eq_none_iff, List.findSome?_eq_none_iff] at hentry
  simpa only [Std.ExtTreeSet.mem_toList] using hentry

/-- The search finds nothing exactly when the recorded elements are a consistent
taxonomy. -/
theorem defect?_eq_none_iff : r.defect? = none ↔ r.unchecked.Consistent := by
  constructor
  · intro hnone
    apply Taxonomy.consistent_of_child_iff_parent
    intro a b
    constructor
    · intro hnoted
      obtain ⟨e, he⟩ := Taxonomy.mem_iff.1 (Taxonomy.mem_of_mem_children hnoted)
      have hchildren := (eq_none_of_defect?_eq_none hnone he).1
      exact childDefect?_eq_none_iff.1 (hchildren b ((Taxonomy.adjacent_iff he).1 hnoted))
    · intro hnoted
      obtain ⟨e, he⟩ := Taxonomy.mem_iff.1 (Taxonomy.mem_of_mem_parents hnoted)
      have hparents := (eq_none_of_defect?_eq_none hnone he).2
      exact parentDefect?_eq_none_iff.1 (hparents a ((Taxonomy.adjacent_iff he).1 hnoted))
  · intro hconsistent
    cases hdefect : r.defect? with
    | none => rfl
    | some x =>
      -- What the search finds is noted at one end, and so at the other.
      rcases exists_noted_of_defect?_eq_some hdefect with
        ⟨parent, child, hnoted, hchild⟩ | ⟨child, parent, hnoted, hparent⟩
      · rw [childDefect?_eq_none_iff.2 ((hconsistent.child_iff_parent _ _).1 hnoted)] at hchild
        cases hchild
      · rw [parentDefect?_eq_none_iff.2 ((hconsistent.child_iff_parent _ _).2 hnoted)] at hparent
        cases hparent

theorem fault_of_defect?_eq_some (h : r.defect? = some x) : r.Fault x := by
  rcases exists_noted_of_defect?_eq_some h with
    ⟨parent, child, hnoted, hchild⟩ | ⟨child, parent, hnoted, hparent⟩
  · exact fault_of_childDefect? hnoted hchild
  · exact fault_of_parentDefect? hnoted hparent

/-- The edges as the parents of each element note them, each a pair of a child
and a parent, in order. -/
def parentEdges (r : Record) : List (Atom × Atom) :=
  r.elements.toList.flatMap fun (child, e) => e.parents.toList.map fun parent => (child, parent)

theorem mem_parentEdges : (child, parent) ∈ r.parentEdges ↔ r.unchecked.Edge child parent :=
  Taxonomy.mem_edgeList (t := r.unchecked)

/-- Working through lists one inside the other is working through one list. -/
theorem foldlM_foldlM_eq_foldlM_flatMap {α β : Type} (f : α → List β)
    (step : Taxonomy → β → Except TaxonomyError Taxonomy) (items : List α) (t : Taxonomy) :
    items.foldlM (fun t x => (f x).foldlM step t) t = (items.flatMap f).foldlM step t := by
  induction items generalizing t with
  | nil => rfl
  | cons x items ih =>
    rw [List.flatMap_cons, List.foldlM_append, List.foldlM_cons]
    exact congrArg _ (funext ih)

/-- Without a defect reading adds the edges that parents note to the elements. -/
theorem toTaxonomy_eq_addEdges (h : r.defect? = none) :
    r.toTaxonomy = r.skeleton.addEdges r.parentEdges := by
  rw [toTaxonomy_eq_foldlM h, Taxonomy.addEdges, parentEdges, ← foldlM_foldlM_eq_foldlM_flatMap]
  simp only [List.foldlM_map]

theorem foldl_addElement (atoms : List Atom) (t : Taxonomy) (a : Atom) :
    (a ∈ atoms.foldl Taxonomy.addElement t ↔ a ∈ atoms ∨ a ∈ t) ∧
      (atoms.foldl Taxonomy.addElement t).parents a = t.parents a := by
  induction atoms generalizing t with
  | nil => simp
  | cons b atoms ih =>
    obtain ⟨hmem, hparents⟩ := ih (t.addElement b)
    rw [List.foldl_cons]
    constructor
    · rw [hmem, Taxonomy.mem_addElement, List.mem_cons, eq_comm (a := b), or_left_comm, or_assoc]
    · rw [hparents, Taxonomy.parents_addElement]

/-- The graph of the recorded elements is that of the elements alone with the
edges that parents note. -/
theorem hierarchy_unchecked (r : Record) :
    r.unchecked.hierarchy = r.skeleton.hierarchy.withEdges r.parentEdges := by
  have hempty (a : Atom) : a ∉ ({ policy := r.policy } : Taxonomy) := Std.ExtTreeMap.not_mem_empty
  apply Hierarchy.ext
  · ext a
    change a ∈ r.elements ↔ a ∈ r.skeleton
    rw [skeleton, (foldl_addElement _ _ a).1, Std.ExtTreeMap.mem_keys, or_iff_left (hempty a)]
  · ext ⟨child, parent⟩
    have hnone : ¬ r.skeleton.Edge child parent := by
      rw [Taxonomy.Edge, skeleton, (foldl_addElement _ _ child).2]
      exact fun hedge => hempty child (Taxonomy.mem_of_mem_parents hedge)
    change r.unchecked.Edge child parent ↔
      (child, parent) ∈ r.parentEdges ∨ r.skeleton.Edge child parent
    rw [mem_parentEdges, or_iff_left hnone]

/-- Without a defect the recorded elements are read as they are, unless cycles
are rejected and some edge closes one. -/
theorem toTaxonomy_cases (h : r.unchecked.Consistent) :
    r.toTaxonomy = .ok r.unchecked ∨
      (r.policy = .reject ∧ ∃ parent child, r.unchecked.Edge child parent ∧
        ReflTransGen r.unchecked.Edge parent child ∧
          r.toTaxonomy = .error (.cycle parent child)) := by
  have hskeleton : r.skeleton.Consistent :=
    (Taxonomy.consistent_empty r.policy).changes r.changes_skeleton
  have hpolicy : r.skeleton.policy = r.policy := Taxonomy.policy_of_changes r.changes_skeleton
  have hvertices (a : Atom) : a ∈ r.unchecked ↔ a ∈ r.skeleton :=
    Set.ext_iff.1 (congrArg Hierarchy.vertices r.hierarchy_unchecked) a
  have hends : ∀ edge ∈ r.parentEdges, edge.1 ∈ r.skeleton ∧ edge.2 ∈ r.skeleton := by
    intro edge hedge
    obtain ⟨hchild, hparent⟩ := h.mem_of_edge (mem_parentEdges.1 hedge)
    exact ⟨(hvertices edge.1).1 hchild, (hvertices edge.2).1 hparent⟩
  rw [toTaxonomy_eq_addEdges (defect?_eq_none_iff.2 h)]
  rcases hskeleton.addEdges_cases hends with ⟨t, hok, hgraph⟩ | ⟨hreject, edge, hrefused⟩
  · left
    have hchanges := Taxonomy.changes_addEdges hok
    have hsame : t.policy = r.policy := (Taxonomy.policy_of_changes hchanges).trans hpolicy
    rw [hok, (hskeleton.changes hchanges).eq_of_hierarchy_eq h hsame
      (hgraph.trans r.hierarchy_unchecked.symm)]
  · right
    obtain ⟨hedge, hcloses, herror⟩ := hrefused
    rw [← r.hierarchy_unchecked] at hcloses
    exact ⟨hpolicy.symm.trans hreject, edge.2, edge.1, mem_parentEdges.1 hedge, hcloses, herror⟩

theorem eq_error_of_not_consistent (h : ¬ r.unchecked.Consistent) :
    ∃ x, r.toTaxonomy = .error x ∧ r.Fault x := by
  obtain ⟨x, hx⟩ := Option.ne_none_iff_exists'.1 (mt defect?_eq_none_iff.1 h)
  refine ⟨x, ?_, fault_of_defect?_eq_some hx⟩
  simp only [toTaxonomy, hx]

/-- Reading a record gives the elements as they are recorded, or an error that
is true of it. -/
theorem toTaxonomy_eq_unchecked_or_fault (r : Record) :
    (r.toTaxonomy = .ok r.unchecked ∧ r.unchecked.Consistent) ∨
      ∃ x, r.toTaxonomy = .error x ∧ r.Fault x := by
  by_cases h : r.unchecked.Consistent
  · rcases toTaxonomy_cases h with hok | ⟨hpolicy, parent, child, hedge, hpath, herror⟩
    · exact Or.inl ⟨hok, h⟩
    · exact Or.inr ⟨_, herror, .cycle hpolicy h hedge hpath⟩
  · exact Or.inr (eq_error_of_not_consistent h)

theorem fault_of_toTaxonomy_eq_error (h : r.toTaxonomy = .error x) : r.Fault x := by
  rcases r.toTaxonomy_eq_unchecked_or_fault with ⟨hok, -⟩ | ⟨y, herror, hfault⟩
  · rw [hok] at h
    cases h
  · obtain rfl : y = x := Except.error.inj (herror.symm.trans h)
    exact hfault

theorem eq_unchecked_of_toTaxonomy_eq_ok (h : r.toTaxonomy = .ok t) :
    t = r.unchecked ∧ r.unchecked.Consistent := by
  rcases r.toTaxonomy_eq_unchecked_or_fault with ⟨hok, hconsistent⟩ | ⟨y, herror, -⟩
  · exact ⟨Except.ok.inj (h.symm.trans hok), hconsistent⟩
  · rw [herror] at h
    cases h

end Record

end Subsumption
