import Mathlib.Logic.Relation
import Subsumption.Taxonomy.Lemmas
import Subsumption.Taxonomy.Record
/-!
Reachable taxonomies.  A revision, whatever becomes of it, amounts to finitely many
changes of four kinds, and so does reading a record.  What each change keeps
therefore holds of every reachable taxonomy.
-/

namespace Subsumption

namespace Taxonomy

/-- The taxonomies that revisions lead to, from a new taxonomy or from a record
that was accepted. -/
inductive Reachable : Taxonomy → Prop
  | ofSettings (settings : Settings) : Reachable (ofSettings settings)
  | ofRecord {r : Record} {t : Taxonomy} : r.toTaxonomy = .ok t → Reachable t
  | revise {t : Taxonomy} (revision : Revision) : Reachable t → Reachable (t.revise revision).1

/-- One change of a taxonomy, by a step that succeeds. -/
inductive Change : Taxonomy → Taxonomy → Prop
  | addElement (t : Taxonomy) (a : Atom) : Change t (t.addElement a)
  | removeElement {t t' : Taxonomy} {a : Atom} {e : Element} :
      t.removeElement a = .ok (e, t') → Change t t'
  | addEdge {t t' : Taxonomy} {parent child : Atom} :
      t.addEdge parent child = .ok t' → Change t t'
  | removeEdge {t t' : Taxonomy} {parent child : Atom} :
      t.removeEdge parent child = .ok t' → Change t t'

/-- Any number of changes, one after the other. -/
abbrev Changes : Taxonomy → Taxonomy → Prop := Relation.ReflTransGen Change

variable {t t' : Taxonomy}

theorem changes_foldl_addElement (t : Taxonomy) (atoms : List Atom) :
    Changes t (atoms.foldl addElement t) := by
  induction atoms generalizing t with
  | nil => exact .refl
  | cons a atoms ih => exact .head (.addElement t a) (ih (t.addElement a))

theorem exists_eq_ok_of_map_eq_ok {α β : Type} {result : Except TaxonomyError α} {f : α → β}
    {y : β} (h : result.map f = .ok y) : ∃ x, result = .ok x ∧ f x = y := by
  cases result with
  | error e => cases h
  | ok x =>
    cases h
    exact ⟨x, rfl, rfl⟩

/-- A step that may fail is one change or none. -/
theorem changes_attempt {α : Type} {result : Except TaxonomyError α} {f : α → Answer × Taxonomy}
    (h : ∀ x, result = .ok x → Change t (f x).2) : Changes t (t.attempt (result.map f)).1 := by
  cases result with
  | error e => exact .refl
  | ok x => exact .single (h x rfl)

/-- A run that stops at the first failure keeps the changes made before it. -/
theorem changes_eachUntilError {step : Taxonomy → Atom → Except TaxonomyError Taxonomy}
    (hstep : ∀ t a t', step t a = .ok t' → Change t t') (t : Taxonomy) (atoms : List Atom) :
    Changes t (t.eachUntilError step atoms).1 := by
  induction atoms generalizing t with
  | nil => exact .refl
  | cons a atoms ih =>
    unfold eachUntilError
    cases ha : step t a with
    | error x => exact .refl
    | ok t' => exact .head (hstep t a t' ha) (ih t')

/-- Every revision is a sequence of changes, whether or not it succeeds. -/
theorem changes_revise (t : Taxonomy) (revision : Revision) :
    Changes t (t.revise revision).1 := by
  rw [revise_eq_effect]
  cases revision with
  | addElement a => exact .single (.addElement t a)
  | addElements atoms =>
    apply changes_eachUntilError
    intro t a t' hok
    cases hok
    exact .addElement t a
  | removeElement a => exact changes_attempt fun _ => .removeElement
  | removeElements atoms =>
    apply changes_eachUntilError
    intro t a t' hok
    obtain ⟨removed, hremove, rfl⟩ := exists_eq_ok_of_map_eq_ok hok
    exact .removeElement hremove
  | addChild parent child => exact changes_attempt fun _ => .addEdge
  | addParent child parent => exact changes_attempt fun _ => .addEdge
  | addChildren parent children => exact changes_eachUntilError (fun _ _ _ => .addEdge) t children
  | addParents child parents => exact changes_eachUntilError (fun _ _ _ => .addEdge) t parents
  | removeChild parent child => exact changes_attempt fun _ => .removeEdge
  | removeParent child parent => exact changes_attempt fun _ => .removeEdge
  | removeChildren parent children =>
    exact changes_eachUntilError (fun _ _ _ => .removeEdge) t children
  | removeParents child parents =>
    exact changes_eachUntilError (fun _ _ _ => .removeEdge) t parents

/-- A sequence of revisions is a sequence of changes. -/
theorem changes_run (t : Taxonomy) (revisions : List Revision) :
    Changes t (t.run revisions) := by
  induction revisions generalizing t with
  | nil => exact .refl
  | cons revision revisions ih => exact (changes_revise t revision).trans (ih _)

/-- No change touches the policy. -/
theorem policy_of_change (hchange : Change t t') : t'.policy = t.policy := by
  cases hchange with
  | addElement a => rfl
  | removeElement hremove => exact policy_removeElement hremove
  | addEdge hadd =>
    obtain ⟨-, -, -, rfl⟩ := addEdge_eq_ok_iff.1 hadd
    rfl
  | removeEdge hremove =>
    obtain ⟨-, -, rfl⟩ := removeEdge_eq_ok_iff.1 hremove
    rfl

theorem policy_of_changes (hchanges : Changes t t') : t'.policy = t.policy := by
  induction hchanges with
  | refl => rfl
  | tail _ hchange ih => rw [policy_of_change hchange, ih]

theorem changes_of_foldlM_eq_ok {α : Type} {step : Taxonomy → α → Except TaxonomyError Taxonomy}
    (hstep : ∀ t x t', step t x = .ok t' → Changes t t') (items : List α)
    (h : items.foldlM step t = .ok t') : Changes t t' := by
  induction items generalizing t with
  | nil =>
    cases h
    exact .refl
  | cons x items ih =>
    rw [List.foldlM_cons] at h
    cases hx : step t x with
    | error e =>
      rw [hx] at h
      cases h
    | ok t₁ =>
      rw [hx] at h
      exact (hstep t x t₁ hx).trans (ih h)

end Taxonomy

namespace Record

open Taxonomy

/-- The taxonomy with the elements of the record and none of its edges. -/
def skeleton (r : Record) : Taxonomy := r.elements.keys.foldl addElement { policy := r.policy }

theorem changes_skeleton (r : Record) : Changes { policy := r.policy } r.skeleton :=
  changes_foldl_addElement { policy := r.policy } r.elements.keys

theorem ofSettings_settings (r : Record) : ofSettings r.settings = { policy := r.policy } := by
  rw [ofSettings, settings, Settings.value_setCyclePolicy]

/-- Without a defect reading adds the elements, and then the edges that parents
note up to the first that is refused. -/
theorem toTaxonomy_eq_foldlM {r : Record} (h : r.defect? = none) :
    r.toTaxonomy = r.elements.toList.foldlM
      (fun t (child, e) => e.parents.toList.foldlM (fun t parent => t.addEdge parent child) t)
      r.skeleton := by
  have hskeleton : (Taxonomy.built { policy := r.policy } <|
      forM r.elements.keys fun a => do let _ ← Procedure.addElement a) = .ok r.skeleton := by
    rw [built_forM built_addElement]
    exact List.foldlM_pure
  have hedges (t : Taxonomy) (child : Atom) (e : Element) :
      t.built (forM e.parents.toList fun parent => Procedure.addEdge parent child) =
        e.parents.toList.foldlM (fun t parent => t.addEdge parent child) t :=
    built_forM (fun t parent => built_addEdge t parent child) t e.parents.toList
  simp only [toTaxonomy, h]
  rw [ofSettings_settings, rebuild, built_bind, hskeleton]
  exact built_forM (fun t entry => hedges t entry.1 entry.2) _ _

end Record

namespace Taxonomy

variable {t : Taxonomy}

/-- A taxonomy is read from a record by adding the elements and then the edges
to a taxonomy without elements. -/
theorem changes_of_toTaxonomy_eq_ok {r : Record} (h : r.toTaxonomy = .ok t) :
    Changes { policy := r.policy } t := by
  cases hdefect : r.defect? with
  | some e =>
    simp only [Record.toTaxonomy, hdefect] at h
    cases h
  | none =>
    rw [Record.toTaxonomy_eq_foldlM hdefect] at h
    refine r.changes_skeleton.trans (changes_of_foldlM_eq_ok ?_ r.elements.toList h)
    intro t entry t' hentry
    apply changes_of_foldlM_eq_ok ?_ entry.2.parents.toList hentry
    intro t parent t' hparent
    exact .single (.addEdge hparent)

namespace Reachable

/-- Every reachable taxonomy comes from one without elements by changes. -/
theorem exists_changes (h : t.Reachable) : ∃ policy, Changes { policy } t := by
  induction h with
  | ofSettings settings => exact ⟨settings.cyclePolicy.value, .refl⟩
  | ofRecord h => exact ⟨_, changes_of_toTaxonomy_eq_ok h⟩
  | revise revision _ ih =>
    obtain ⟨policy, hchanges⟩ := ih
    exact ⟨policy, hchanges.trans (changes_revise _ revision)⟩

/-- What holds without elements and is kept by every change holds of every
reachable taxonomy. -/
theorem invariant {P : Taxonomy → Prop} (hempty : ∀ policy, P { policy })
    (hchange : ∀ t t', Change t t' → P t → P t') (h : t.Reachable) : P t := by
  obtain ⟨policy, hchanges⟩ := h.exists_changes
  -- The induction is on the changes, not on the way the taxonomy was reached.
  clear h
  induction hchanges with
  | refl => exact hempty policy
  | tail _ hstep ih => exact hchange _ _ hstep ih

theorem run (h : t.Reachable) (revisions : List Revision) : (t.run revisions).Reachable := by
  induction revisions generalizing t with
  | nil => exact h
  | cons revision revisions ih => exact ih (h.revise revision)

end Reachable

end Taxonomy

end Subsumption
