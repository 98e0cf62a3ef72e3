import Subsumption.Taxonomy.Revision
/-!
What the procedures amount to.  For one element or edge each either writes all that it
is for or leaves the taxonomy as it was, as no look-up after the first write fails.
-/

namespace Subsumption

theorem Elements.erase_eq_self {m : Elements} {a : Atom} (h : m[a]? = none) : m.erase a = m := by
  apply Std.ExtTreeMap.ext_getElem?
  intro b
  rw [Std.ExtTreeMap.getElem?_erase]
  split
  · next hab => rw [← Std.LawfulEqOrd.compare_eq_iff_eq.1 hab, h]
  · rfl

theorem Elements.modify_eq_self {m : Elements} {a : Atom} {change : Element → Element}
    (h : ∀ e, m[a]? = some e → change e = e) : m.modify a change = m := by
  apply Std.ExtTreeMap.ext_getElem?
  intro b
  rw [Std.ExtTreeMap.getElem?_modify]
  split
  · next hab =>
    rw [← Std.LawfulEqOrd.compare_eq_iff_eq.1 hab]
    cases he : m[a]? with
    | none => rfl
    | some e => rw [Option.map_some, h e he]
  · rfl

theorem Element.forgetChild_eq_self {a : Atom} {e : Element} (h : a ∉ e.children) :
    e.forgetChild a = e := by
  have hchildren : e.children.erase a = e.children := by
    apply Std.ExtTreeSet.ext_mem
    intro b
    rw [Std.ExtTreeSet.mem_erase]
    apply and_iff_right_of_imp
    intro hb hab
    exact h (Std.LawfulEqOrd.compare_eq_iff_eq.1 hab ▸ hb)
  rw [Element.forgetChild, hchildren]

namespace Taxonomy

/-- Adds an element without edges, unless the atom is an element already. -/
def addElement (t : Taxonomy) (a : Atom) : Taxonomy :=
  { t with elements := t.elements.insertIfNew a {} }

/-- Removes an element together with every edge to or from it. -/
def removeElement (t : Taxonomy) (a : Atom) : Except TaxonomyError (Element × Taxonomy) := do
  let e ← t.element a
  return (e, { t with elements := Elements.detach (t.elements.erase a) a e })

/-- The taxonomy with the edge recorded at both of its ends. -/
def link (t : Taxonomy) (parent child : Atom) : Taxonomy :=
  let atParent := t.elements.modify parent (Element.noteChild child)
  { t with elements := atParent.modify child (Element.noteParent parent) }

/-- The taxonomy with the edge struck at both of its ends. -/
def unlink (t : Taxonomy) (parent child : Atom) : Taxonomy :=
  let atParent := t.elements.modify parent (Element.forgetChild child)
  { t with elements := atParent.modify child (Element.forgetParent parent) }

/-- Adds the edge from `child` to `parent`, with all checks made first. -/
def addEdge (t : Taxonomy) (parent child : Atom) : Except TaxonomyError Taxonomy := do
  let _ ← t.element parent
  let _ ← t.element child
  if t.policy = .reject then
    if ← t.closesCycle parent child then throw (.cycle parent child)
  return t.link parent child

/-- Removes the edge from `child` to `parent`, with all checks made first. -/
def removeEdge (t : Taxonomy) (parent child : Atom) : Except TaxonomyError Taxonomy := do
  let _ ← t.element child
  let e ← t.element parent
  if child ∈ e.children then return t.unlink parent child
  else throw (.edgeNotFound parent child)

/-- Applies a step to each atom in turn, up to the first failure. -/
def eachUntilError (step : Taxonomy → Atom → Except TaxonomyError Taxonomy) (t : Taxonomy) :
    List Atom → Taxonomy × Except TaxonomyError Answer
  | [] => (t, .ok .done)
  | a :: rest =>
    match step t a with
    | .ok t' => eachUntilError step t' rest
    | .error e => (t, .error e)

/-- The taxonomy after a step that may fail, unchanged if it does. -/
def attempt {α : Type} (t : Taxonomy) (result : Except TaxonomyError (α × Taxonomy)) :
    Taxonomy × Except TaxonomyError α :=
  match result with
  | .ok (answer, t') => (t', .ok answer)
  | .error e => (t, .error e)

/-- What becomes of a taxonomy that is revised, and what the revision answers. -/
def effect (t : Taxonomy) : Revision → Taxonomy × Except TaxonomyError Answer
  | .addElement a => (t.addElement a, .ok (.added (a ∉ t)))
  | .addElements atoms => t.eachUntilError (fun t a => .ok (t.addElement a)) atoms
  | .removeElement a => t.attempt ((t.removeElement a).map fun (e, t') => (.removed e, t'))
  | .removeElements atoms => t.eachUntilError (fun t a => (t.removeElement a).map (·.2)) atoms
  | .addChild parent child => t.attempt ((t.addEdge parent child).map (.done, ·))
  | .addParent child parent => t.attempt ((t.addEdge parent child).map (.done, ·))
  | .addChildren parent children =>
    t.eachUntilError (fun t child => t.addEdge parent child) children
  | .addParents child parents =>
    t.eachUntilError (fun t parent => t.addEdge parent child) parents
  | .removeChild parent child => t.attempt ((t.removeEdge parent child).map (.done, ·))
  | .removeParent child parent => t.attempt ((t.removeEdge parent child).map (.done, ·))
  | .removeChildren parent children =>
    t.eachUntilError (fun t child => t.removeEdge parent child) children
  | .removeParents child parents =>
    t.eachUntilError (fun t parent => t.removeEdge parent child) parents

variable {α β : Type} {t : Taxonomy} {a b parent child : Atom}

/-- An element is still found after a record was changed. -/
theorem exists_element_modify (h : b ∈ t) (a : Atom) (change : Element → Element) :
    ∃ e, ({ t with elements := t.elements.modify a change } : Taxonomy).element b = .ok e := by
  have hmem : b ∈ ({ t with elements := t.elements.modify a change } : Taxonomy) :=
    Std.ExtTreeMap.mem_modify.2 h
  obtain ⟨e, he⟩ := mem_iff.1 hmem
  exact ⟨e, element_eq_ok_iff.2 he⟩

theorem perform_bind (t : Taxonomy) (p : Procedure α) (f : α → Procedure β) :
    t.perform (p >>= f) =
      match t.perform p with
      | (t', .ok x) => t'.perform (f x)
      | (t', .error e) => (t', .error e) := by
  simp only [perform, EStateM.run_bind]
  cases p.run t <;> rfl

theorem perform_get_bind (t : Taxonomy) (f : Taxonomy → Procedure α) :
    t.perform (get >>= f) = t.perform (f t) := rfl

theorem perform_modify_bind (t : Taxonomy) (change : Taxonomy → Taxonomy)
    (f : Unit → Procedure α) :
    t.perform (modify change >>= f) = (change t).perform (f ()) := rfl

theorem perform_ask (t : Taxonomy) (question : Taxonomy → Except TaxonomyError α) :
    t.perform (Procedure.ask question) = (t, question t) := by
  rw [Procedure.ask, perform_get_bind]
  cases question t <;> rfl

/-- A record is changed once the element is found. -/
theorem perform_amend (t : Taxonomy) (a : Atom) (change : Element → Element) :
    t.perform (Procedure.amend a change) =
      t.attempt ((t.element a).map (·, { t with elements := t.elements.modify a change })) := by
  rw [Procedure.amend, perform_bind, perform_ask]
  cases t.element a <;> rfl

theorem perform_addElement (t : Taxonomy) (a : Atom) :
    t.perform (Procedure.addElement a) = (t.addElement a, .ok (a ∉ t)) := by
  rw [Procedure.addElement, perform_get_bind, addElement]
  by_cases h : a ∈ t
  · have hkept : t.elements.insertIfNew a {} = t.elements := by
      apply Std.ExtTreeMap.ext_getElem?
      intro b
      rw [Std.ExtTreeMap.getElem?_insertIfNew, if_neg fun hnew => hnew.2 h]
    rw [if_pos h, hkept, decide_eq_false (not_not_intro h)]
    rfl
  · have hnew : t.elements.insertIfNew a {} = t.elements.insert a {} := by
      apply Std.ExtTreeMap.ext_getElem?
      intro b
      have habsent : a ∉ t.elements := h
      rw [Std.ExtTreeMap.getElem?_insertIfNew, Std.ExtTreeMap.getElem?_insert]
      simp only [habsent, not_false_eq_true, and_true]
    rw [if_neg h, hnew, decide_eq_true h]
    rfl

/-- A removal that fails has erased nothing. -/
theorem perform_removeElement (t : Taxonomy) (a : Atom) :
    t.perform (Procedure.removeElement a) = t.attempt (t.removeElement a) := by
  rw [Procedure.removeElement, perform_get_bind, perform_modify_bind, removeElement, element]
  cases h : t.elements[a]? with
  | none =>
    rw [Elements.erase_eq_self h]
    rfl
  | some e => rfl

/-- Between elements both notes of an edge are made: the second look-up does not fail
for what the first one wrote. -/
theorem perform_noteEdge (hparent : parent ∈ t) (hchild : child ∈ t) :
    t.perform (Procedure.noteEdge parent child) = (t.link parent child, .ok ()) := by
  obtain ⟨e, he⟩ := mem_iff.1 hparent
  obtain ⟨e', he'⟩ := exists_element_modify hchild parent (Element.noteChild child)
  rw [Procedure.noteEdge, perform_bind, perform_amend, element_eq_ok_iff.2 he]
  change Taxonomy.perform _ _ = _
  rw [perform_bind, perform_amend, he']
  rfl

/-- Both ends are looked up and the cycle is sought before the first write. -/
theorem perform_addEdge (t : Taxonomy) (parent child : Atom) :
    t.perform (Procedure.addEdge parent child) =
      t.attempt ((t.addEdge parent child).map ((), ·)) := by
  rw [Procedure.addEdge, perform_bind, perform_ask, addEdge]
  cases hparent : t.element parent with
  | error x => rfl
  | ok e =>
    change t.perform _ = _
    rw [perform_bind, perform_ask]
    cases hchild : t.element child with
    | error x => rfl
    | ok e' =>
      have hlink : t.perform (Procedure.noteEdge parent child) = (t.link parent child, .ok ()) :=
        perform_noteEdge (mem_of_element_eq_ok hparent) (mem_of_element_eq_ok hchild)
      change t.perform _ = _
      rw [perform_get_bind]
      by_cases hpolicy : t.policy = .reject
      · rw [if_pos hpolicy, perform_bind, perform_ask]
        simp only [hpolicy]
        cases t.closesCycle parent child with
        | error x => rfl
        | ok closes =>
          cases closes with
          | true => rfl
          | false => exact hlink
      · rw [if_neg hpolicy]
        simp only [hpolicy]
        exact hlink

/-- The write that comes before the last check changes nothing if the check fails. -/
theorem perform_removeEdge (t : Taxonomy) (parent child : Atom) :
    t.perform (Procedure.removeEdge parent child) =
      t.attempt ((t.removeEdge parent child).map ((), ·)) := by
  rw [Procedure.removeEdge, perform_bind, perform_ask, removeEdge]
  cases hchild : t.element child with
  | error x => rfl
  | ok e' =>
    change t.perform _ = _
    rw [perform_bind, perform_amend]
    cases hparent : t.element parent with
    | error x => rfl
    | ok e =>
      change Taxonomy.perform _ (if _ then _ else _) =
        t.attempt (Except.map _ (if child ∈ e.children then _ else _))
      by_cases hedge : child ∈ e.children
      · obtain ⟨e'', he''⟩ := exists_element_modify (mem_of_element_eq_ok hchild) parent
          (Element.forgetChild child)
        rw [if_pos hedge, if_pos hedge, perform_bind, perform_amend, he'']
        rfl
      · have hkept : t.elements.modify parent (Element.forgetChild child) = t.elements := by
          apply Elements.modify_eq_self
          intro e'' he''
          rw [element_eq_ok_iff, he''] at hparent
          cases hparent
          exact Element.forgetChild_eq_self hedge
        rw [if_neg hedge, if_neg hedge, hkept]
        rfl

/-- A procedure without an answer that amounts to an attempt is run through a list as
the attempts are. -/
theorem perform_forEach {procedure : Atom → Procedure Unit}
    {step : Taxonomy → Atom → Except TaxonomyError Taxonomy}
    (h : ∀ (t : Taxonomy) (a : Atom),
      t.perform (procedure a) = t.attempt ((step t a).map ((), ·)))
    (t : Taxonomy) (atoms : List Atom) :
    t.perform (Procedure.forEach atoms procedure) = t.eachUntilError step atoms := by
  rw [Procedure.forEach]
  induction atoms generalizing t with
  | nil => rfl
  | cons a atoms ih =>
    rw [List.forM_cons, bind_assoc, perform_bind, h, eachUntilError]
    cases step t a with
    | error x => rfl
    | ok t' => exact ih t'

theorem built_bind (t : Taxonomy) (p : Procedure α) (q : Procedure β) :
    t.built (do let _ ← p; q) = t.built p >>= fun t' => t'.built q := by
  rw [built, perform_bind, built]
  rcases t.perform p with ⟨t', _ | _⟩ <;> rfl

theorem built_forM {procedure : α → Procedure Unit}
    {step : Taxonomy → α → Except TaxonomyError Taxonomy}
    (h : ∀ (t : Taxonomy) (x : α), t.built (procedure x) = step t x) (t : Taxonomy)
    (items : List α) : t.built (forM items procedure) = items.foldlM step t := by
  induction items generalizing t with
  | nil => rfl
  | cons x items ih =>
    rw [List.forM_cons, List.foldlM_cons, built_bind, h]
    exact congrArg _ (funext ih)

theorem built_addElement (t : Taxonomy) (a : Atom) :
    t.built (do let _ ← Procedure.addElement a) = .ok (t.addElement a) := by
  rw [built_bind, built, perform_addElement]
  rfl

theorem built_addEdge (t : Taxonomy) (parent child : Atom) :
    t.built (Procedure.addEdge parent child) = t.addEdge parent child := by
  rw [built, perform_addEdge]
  cases t.addEdge parent child <;> rfl

/-- What becomes of a taxonomy is what the pure steps make of it. -/
theorem revise_eq_effect (t : Taxonomy) (revision : Revision) :
    t.revise revision = t.effect revision := by
  have hanswer {p : Procedure Unit} {result : Except TaxonomyError Taxonomy}
      (h : t.perform p = t.attempt (result.map ((), ·))) :
      t.perform (do p; return Answer.done) = t.attempt (result.map (.done, ·)) := by
    rw [perform_bind, h]
    cases result <;> rfl
  cases revision with
  | addElement a =>
    change t.perform (Procedure.addElement a >>= _) = _
    rw [perform_bind, perform_addElement]
    rfl
  | addElements atoms =>
    apply perform_forEach
    intro t a
    rw [perform_bind, perform_addElement]
    rfl
  | removeElement a =>
    change t.perform (Procedure.removeElement a >>= _) = _
    rw [perform_bind, perform_removeElement, effect]
    cases t.removeElement a <;> rfl
  | removeElements atoms =>
    apply perform_forEach
    intro t a
    rw [perform_bind, perform_removeElement]
    cases t.removeElement a <;> rfl
  | addChild parent child => exact hanswer (perform_addEdge t parent child)
  | addParent child parent => exact hanswer (perform_addEdge t parent child)
  | addChildren parent children => exact perform_forEach (perform_addEdge · parent) t children
  | addParents child parents => exact perform_forEach (perform_addEdge · · child) t parents
  | removeChild parent child => exact hanswer (perform_removeEdge t parent child)
  | removeParent child parent => exact hanswer (perform_removeEdge t parent child)
  | removeChildren parent children =>
    exact perform_forEach (perform_removeEdge · parent) t children
  | removeParents child parents => exact perform_forEach (perform_removeEdge · · child) t parents

end Taxonomy

end Subsumption
