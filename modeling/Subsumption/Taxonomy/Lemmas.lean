import Subsumption.Taxonomy.Effect
/-!
What each revision does to the elements and edges of a taxonomy.
-/

namespace Subsumption

namespace Taxonomy

theorem mem_addElement {t : Taxonomy} {a b : Atom} :
    b ∈ t.addElement a ↔ a = b ∨ b ∈ t := by
  change b ∈ t.elements.insertIfNew a {} ↔ a = b ∨ b ∈ t.elements
  rw [Std.ExtTreeMap.mem_insertIfNew, Std.LawfulEqOrd.compare_eq_iff_eq]

/-- A new element has no edges, and the others keep theirs. -/
theorem getD_addElement (t : Taxonomy) (a b : Atom) :
    (t.addElement a).elements[b]?.getD {} = t.elements[b]?.getD {} := by
  change (t.elements.insertIfNew a {})[b]?.getD {} = _
  rw [Std.ExtTreeMap.getElem?_insertIfNew]
  split
  · next h =>
    rw [Std.LawfulEqOrd.compare_eq_iff_eq] at h
    obtain ⟨rfl, hnew⟩ := h
    rw [Std.ExtTreeMap.getElem?_eq_none hnew]
    rfl
  · rfl

@[simp] theorem parents_addElement (t : Taxonomy) (a b : Atom) :
    (t.addElement a).parents b = t.parents b := by
  simp [parents, getD_addElement]

@[simp] theorem children_addElement (t : Taxonomy) (a b : Atom) :
    (t.addElement a).children b = t.children b := by
  simp [children, getD_addElement]

/-- Modifying the record of one element changes what is read there only. -/
theorem getD_modify (m : Elements) (a b : Atom) (f : Element → Element) :
    (m.modify a f)[b]?.getD {} =
      if a = b ∧ b ∈ m then f (m[b]?.getD {}) else m[b]?.getD {} := by
  rw [Std.ExtTreeMap.getElem?_modify]
  by_cases hab : a = b
  · subst hab
    by_cases hm : a ∈ m
    · simp [hm]
    · simp [hm]
  · simp [hab]

theorem mem_link {t : Taxonomy} {parent child a : Atom} :
    a ∈ t.link parent child ↔ a ∈ t := by
  change a ∈ (t.link parent child).elements ↔ a ∈ t.elements
  simp [link, Std.ExtTreeMap.mem_modify]

theorem mem_unlink {t : Taxonomy} {parent child a : Atom} :
    a ∈ t.unlink parent child ↔ a ∈ t := by
  change a ∈ (t.unlink parent child).elements ↔ a ∈ t.elements
  simp [unlink, Std.ExtTreeMap.mem_modify]

/-- A link shows among the parents of the child and nowhere else. -/
theorem parents_link (t : Taxonomy) (parent child a : Atom) :
    (t.link parent child).parents a =
      if child = a ∧ a ∈ t then (t.parents a).insert parent else t.parents a := by
  change (((t.elements.modify parent _).modify child _)[a]?.getD {}).parents =
    if _ ∧ a ∈ t.elements then _ else _
  simp only [getD_modify, Std.ExtTreeMap.mem_modify]
  split <;> split <;> rfl

theorem children_link (t : Taxonomy) (parent child a : Atom) :
    (t.link parent child).children a =
      if parent = a ∧ a ∈ t then (t.children a).insert child else t.children a := by
  change (((t.elements.modify parent _).modify child _)[a]?.getD {}).children =
    if _ ∧ a ∈ t.elements then _ else _
  simp only [getD_modify, Std.ExtTreeMap.mem_modify]
  split <;> split <;> rfl

/-- Unlinking strikes the parent at the child and nothing else. -/
theorem parents_unlink (t : Taxonomy) (parent child a : Atom) :
    (t.unlink parent child).parents a =
      if child = a ∧ a ∈ t then (t.parents a).erase parent else t.parents a := by
  change (((t.elements.modify parent _).modify child _)[a]?.getD {}).parents =
    if _ ∧ a ∈ t.elements then _ else _
  simp only [getD_modify, Std.ExtTreeMap.mem_modify]
  split <;> split <;> rfl

theorem children_unlink (t : Taxonomy) (parent child a : Atom) :
    (t.unlink parent child).children a =
      if parent = a ∧ a ∈ t then (t.children a).erase child else t.children a := by
  change (((t.elements.modify parent _).modify child _)[a]?.getD {}).children =
    if _ ∧ a ∈ t.elements then _ else _
  simp only [getD_modify, Std.ExtTreeMap.mem_modify]
  split <;> split <;> rfl

@[simp] theorem forgetParent_forgetParent (a : Atom) (e : Element) :
    (e.forgetParent a).forgetParent a = e.forgetParent a := by
  cases e with
  | mk children parents =>
    simp only [Element.forgetParent, Element.mk.injEq, true_and]
    apply Std.ExtTreeSet.ext_mem
    simp

@[simp] theorem forgetChild_forgetChild (a : Atom) (e : Element) :
    (e.forgetChild a).forgetChild a = e.forgetChild a := by
  cases e with
  | mk children parents =>
    simp only [Element.forgetChild, Element.mk.injEq, and_true]
    apply Std.ExtTreeSet.ext_mem
    simp

theorem mem_foldl_modify {forget : Element → Element} (atoms : List Atom) (m : Elements)
    (b : Atom) : b ∈ atoms.foldl (fun m a => m.modify a forget) m ↔ b ∈ m := by
  induction atoms generalizing m with
  | nil => rfl
  | cons a atoms ih => rw [List.foldl_cons, ih, Std.ExtTreeMap.mem_modify]

theorem mem_strike {forget : Element → Element} {m : Elements} {atoms : AtomSet} {b : Atom} :
    b ∈ Elements.strike forget m atoms ↔ b ∈ m :=
  mem_foldl_modify atoms.toList m b

/-- Striking the same thing twice at one element is striking it once. -/
theorem getD_foldl_modify {forget : Element → Element} (hidem : ∀ e, forget (forget e) = forget e)
    (atoms : List Atom) (m : Elements) (b : Atom) :
    (atoms.foldl (fun m a => m.modify a forget) m)[b]?.getD {} =
      if b ∈ atoms ∧ b ∈ m then forget (m[b]?.getD {}) else m[b]?.getD {} := by
  induction atoms generalizing m with
  | nil => simp
  | cons a atoms ih =>
    rw [List.foldl_cons, ih, getD_modify]
    simp only [Std.ExtTreeMap.mem_modify]
    by_cases hb : b ∈ m
    · by_cases hab : a = b
      · -- `a` may come again in `atoms`, and is then struck once more.
        subst hab
        simp [hb, hidem]
      · simp [hb, hab, Ne.symm hab]
    · simp [hb]

theorem getD_strike {forget : Element → Element} (hidem : ∀ e, forget (forget e) = forget e)
    (m : Elements) (atoms : AtomSet) (b : Atom) :
    (Elements.strike forget m atoms)[b]?.getD {} =
      if b ∈ atoms ∧ b ∈ m then forget (m[b]?.getD {}) else m[b]?.getD {} := by
  rw [Elements.strike, getD_foldl_modify hidem]
  simp only [Std.ExtTreeSet.mem_toList]

/-- An atom with a recorded neighbour on some side is an element. -/
theorem mem_elements_of_mem_side (side : Side) {m : Elements} (hside : ∀ p, p ∉ side {})
    {b p : Atom} (h : p ∈ side (m[b]?.getD {})) : b ∈ m := by
  rw [Std.ExtTreeMap.mem_iff_isSome_getElem?]
  cases hb : m[b]? with
  | some e => rfl
  | none =>
    rw [hb] at h
    exact absurd h (hside p)

theorem mem_elements_of_mem_parents {m : Elements} {b p : Atom}
    (h : p ∈ (m[b]?.getD {}).parents) : b ∈ m :=
  mem_elements_of_mem_side Element.parents (fun _ => Std.ExtTreeSet.not_mem_empty) h

theorem mem_elements_of_mem_children {m : Elements} {b c : Atom}
    (h : c ∈ (m[b]?.getD {}).children) : b ∈ m :=
  mem_elements_of_mem_side Element.children (fun _ => Std.ExtTreeSet.not_mem_empty) h

/-- A detached atom is struck among the parents of its children. -/
theorem mem_parents_detach {m : Elements} {a b p : Atom} {e : Element} :
    p ∈ ((Elements.detach m a e)[b]?.getD {}).parents ↔
      p ∈ (m[b]?.getD {}).parents ∧ ¬ (p = a ∧ b ∈ e.children) := by
  have hproject (x : Element) : (x.forgetChild a).parents = x.parents := rfl
  rw [Elements.detach, getD_strike (forgetChild_forgetChild a), apply_ite Element.parents,
    hproject, ite_self, getD_strike (forgetParent_forgetParent a), apply_ite Element.parents]
  change p ∈ (if _ then (m[b]?.getD {}).parents.erase a else _) ↔ _
  rw [AtomSet.mem_ite_erase]
  apply and_congr_right
  intro hp
  rw [and_iff_left (mem_elements_of_mem_parents hp)]

theorem mem_children_detach {m : Elements} {a b c : Atom} {e : Element} :
    c ∈ ((Elements.detach m a e)[b]?.getD {}).children ↔
      c ∈ (m[b]?.getD {}).children ∧ ¬ (c = a ∧ b ∈ e.parents) := by
  have hrecord : ((Elements.strike (Element.forgetParent a) m e.children)[b]?.getD {}).children =
      (m[b]?.getD {}).children := by
    rw [getD_strike (forgetParent_forgetParent a), apply_ite Element.children]
    exact ite_self _
  rw [Elements.detach, getD_strike (forgetChild_forgetChild a), apply_ite Element.children]
  change c ∈ (if _ then Std.ExtTreeSet.erase (Element.children _) a else _) ↔ _
  rw [AtomSet.mem_ite_erase, hrecord]
  apply and_congr_right
  intro hc
  rw [and_iff_left (mem_strike.2 (mem_elements_of_mem_children hc))]

theorem getD_erase (m : Elements) (a b : Atom) :
    (m.erase a)[b]?.getD {} = if a = b then {} else m[b]?.getD {} := by
  rw [Std.ExtTreeMap.getElem?_erase]
  simp only [Std.LawfulEqOrd.compare_eq_iff_eq]
  split <;> rfl

theorem removeElement_eq_ok_iff {t t' : Taxonomy} {a : Atom} {e : Element} :
    t.removeElement a = .ok (e, t') ↔ t.elements[a]? = some e ∧
      t' = { t with elements := Elements.detach (t.elements.erase a) a e } := by
  rw [← element_eq_ok_iff]
  unfold removeElement
  cases t.element a with
  | error x => simp [bind, Except.bind]
  | ok e' =>
    simp only [bind, Except.bind, pure, Except.pure, Except.ok.injEq, Prod.mk.injEq]
    constructor
    · rintro ⟨rfl, rfl⟩
      exact ⟨rfl, rfl⟩
    · rintro ⟨rfl, rfl⟩
      exact ⟨rfl, rfl⟩

section Removal

variable {t t' : Taxonomy} {a : Atom} {e : Element}

theorem policy_removeElement (h : t.removeElement a = .ok (e, t')) : t'.policy = t.policy := by
  obtain ⟨-, rfl⟩ := removeElement_eq_ok_iff.1 h
  rfl

theorem mem_removeElement (h : t.removeElement a = .ok (e, t')) {b : Atom} :
    b ∈ t' ↔ b ≠ a ∧ b ∈ t := by
  obtain ⟨-, rfl⟩ := removeElement_eq_ok_iff.1 h
  change b ∈ Elements.detach (t.elements.erase a) a e ↔ b ≠ a ∧ b ∈ t.elements
  rw [Elements.detach, mem_strike, mem_strike, Std.ExtTreeMap.mem_erase, Ne,
    Std.LawfulEqOrd.compare_eq_iff_eq, eq_comm]

theorem getD_removeElement (h : t.removeElement a = .ok (e, t')) :
    t.elements[a]?.getD {} = e := by
  obtain ⟨he, -⟩ := removeElement_eq_ok_iff.1 h
  rw [he]
  rfl

/-- The children of the removed element lose a parent, and nothing else does. -/
theorem mem_parents_removeElement (h : t.removeElement a = .ok (e, t')) {b p : Atom} :
    p ∈ t'.parents b ↔ b ≠ a ∧ p ∈ t.parents b ∧ ¬ (p = a ∧ b ∈ t.children a) := by
  have he := getD_removeElement h
  obtain ⟨-, rfl⟩ := removeElement_eq_ok_iff.1 h
  change p ∈ ((Elements.detach (t.elements.erase a) a e)[b]?.getD {}).parents ↔ _
  rw [mem_parents_detach, getD_erase, ← he]
  by_cases hab : a = b
  · subst hab
    simp
  · rw [if_neg hab]
    exact (and_iff_right (Ne.symm hab)).symm

theorem mem_children_removeElement (h : t.removeElement a = .ok (e, t')) {b c : Atom} :
    c ∈ t'.children b ↔ b ≠ a ∧ c ∈ t.children b ∧ ¬ (c = a ∧ b ∈ t.parents a) := by
  have he := getD_removeElement h
  obtain ⟨-, rfl⟩ := removeElement_eq_ok_iff.1 h
  change c ∈ ((Elements.detach (t.elements.erase a) a e)[b]?.getD {}).children ↔ _
  rw [mem_children_detach, getD_erase, ← he]
  by_cases hab : a = b
  · subst hab
    simp
  · rw [if_neg hab]
    exact (and_iff_right (Ne.symm hab)).symm

end Removal

theorem mem_of_mem_parents {t : Taxonomy} {a p : Atom} (h : p ∈ t.parents a) : a ∈ t :=
  mem_elements_of_mem_parents h

theorem mem_of_mem_children {t : Taxonomy} {a c : Atom} (h : c ∈ t.children a) : a ∈ t :=
  mem_elements_of_mem_children h

theorem mem_parents_link {t : Taxonomy} {parent child a p : Atom} (hchild : child ∈ t) :
    p ∈ (t.link parent child).parents a ↔ (p = parent ∧ a = child) ∨ p ∈ t.parents a := by
  have hend : child = a ∧ a ∈ t ↔ a = child := by
    constructor
    · rintro ⟨rfl, -⟩
      rfl
    · rintro rfl
      exact ⟨rfl, hchild⟩
  rw [parents_link, AtomSet.mem_ite_insert, hend]

theorem mem_children_link {t : Taxonomy} {parent child a c : Atom} (hparent : parent ∈ t) :
    c ∈ (t.link parent child).children a ↔ (a = parent ∧ c = child) ∨ c ∈ t.children a := by
  have hend : parent = a ∧ a ∈ t ↔ a = parent := by
    constructor
    · rintro ⟨rfl, -⟩
      rfl
    · rintro rfl
      exact ⟨rfl, hparent⟩
  rw [children_link, AtomSet.mem_ite_insert, hend, and_comm]

theorem mem_parents_unlink {t : Taxonomy} {parent child a p : Atom} :
    p ∈ (t.unlink parent child).parents a ↔ p ∈ t.parents a ∧ ¬ (p = parent ∧ a = child) := by
  rw [parents_unlink, AtomSet.mem_ite_erase]
  apply and_congr_right
  intro hp
  rw [and_iff_left (mem_of_mem_parents hp), eq_comm (a := child)]

theorem mem_children_unlink {t : Taxonomy} {parent child a c : Atom} :
    c ∈ (t.unlink parent child).children a ↔ c ∈ t.children a ∧ ¬ (a = parent ∧ c = child) := by
  rw [children_unlink, AtomSet.mem_ite_erase]
  apply and_congr_right
  intro hc
  rw [and_iff_left (mem_of_mem_children hc), eq_comm (a := parent), and_comm]

/-- An edge is added between elements, unless cycles are rejected and it would
close one. -/
theorem addEdge_eq_ok_iff {t t' : Taxonomy} {parent child : Atom} :
    t.addEdge parent child = .ok t' ↔
      parent ∈ t ∧ child ∈ t ∧
        (t.policy = .reject → t.closesCycle parent child = .ok false) ∧
        t' = t.link parent child := by
  unfold addEdge
  simp only [bind, Except.bind, pure, Except.pure, throw, throwThe, MonadExceptOf.throw]
  cases hparent : t.element parent with
  | error x => simp [(element_eq_error_iff.1 hparent).1]
  | ok e =>
    cases hchild : t.element child with
    | error x => simp [(element_eq_error_iff.1 hchild).1]
    | ok e' =>
      have hp : parent ∈ t := mem_of_element_eq_ok hparent
      have hc : child ∈ t := mem_of_element_eq_ok hchild
      cases hpolicy : t.policy with
      | permit => simp [hp, hc, eq_comm]
      | reject =>
        cases t.closesCycle parent child with
        | error x => simp
        | ok closes => cases closes <;> simp [hp, hc, eq_comm]

/-- An edge is removed from between elements when it is recorded. -/
theorem removeEdge_eq_ok_iff {t t' : Taxonomy} {parent child : Atom} :
    t.removeEdge parent child = .ok t' ↔
      child ∈ t ∧ child ∈ t.children parent ∧ t' = t.unlink parent child := by
  unfold removeEdge
  simp only [bind, Except.bind, pure, Except.pure, throw, throwThe, MonadExceptOf.throw]
  cases hchild : t.element child with
  | error x => simp [(element_eq_error_iff.1 hchild).1]
  | ok e =>
    have hc : child ∈ t := mem_of_element_eq_ok hchild
    cases hparent : t.element parent with
    | error x =>
      have hnone : child ∉ t.children parent := by
        intro h
        exact (element_eq_error_iff.1 hparent).1 (mem_of_mem_children h)
      simp [hnone]
    | ok e' =>
      have hchildren : t.children parent = e'.children := by
        rw [children, element_eq_ok_iff.1 hparent]
        rfl
      rw [hchildren]
      by_cases h : child ∈ e'.children
      · simp [h, hc, eq_comm]
      · simp [h]

end Taxonomy

end Subsumption
