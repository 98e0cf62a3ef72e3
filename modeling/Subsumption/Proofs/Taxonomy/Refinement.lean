import Subsumption.Proofs.Taxonomy.Hierarchy
/-!
Revisions as changes of a graph.  A revision of one element or edge is the matching
step of the graph, or fails where that is refused and changes nothing; one of a list
is a run of these up to the first failure.
-/

namespace Subsumption

/-- The step that a revision of one element or edge asks for.  An edge is the
same from either end. -/
def Revision.step? : Revision → Option Hierarchy.Step
  | .addElement a => some (.addVertex a)
  | .removeElement a => some (.removeVertex a)
  | .addChild parent child => some (.addEdge parent child)
  | .addParent child parent => some (.addEdge parent child)
  | .removeChild parent child => some (.removeEdge parent child)
  | .removeParent child parent => some (.removeEdge parent child)
  | _ => none

/-- The revisions of one element or edge that a revision works through. -/
def Revision.operands : Revision → List Revision
  | .addElements atoms => atoms.map .addElement
  | .removeElements atoms => atoms.map .removeElement
  | .addChildren parent children => children.map (.addChild parent)
  | .addParents child parents => parents.map (.addParent child)
  | .removeChildren parent children => children.map (.removeChild parent)
  | .removeParents child parents => parents.map (.removeParent child)
  | revision => [revision]

namespace Taxonomy

/-- What a revision leaves, and what it answers. -/
abbrev Outcome := Taxonomy × Except TaxonomyError Answer

variable {t t' : Taxonomy} {outcome : Outcome} {step : Hierarchy.Step} {x : TaxonomyError}

/-- The answer to a step that is carried out. -/
def Answers (t : Taxonomy) : Hierarchy.Step → Answer → Prop
  | .addVertex a, answer => answer = .added (a ∉ t)
  | .removeVertex a, answer => ∃ e, t.elements[a]? = some e ∧ answer = .removed e
  | .addEdge _ _, answer => answer = .done
  | .removeEdge _ _, answer => answer = .done

/-- The outcome is that of the step on the graph of the taxonomy. -/
structure Simulates (t : Taxonomy) (step : Hierarchy.Step) (outcome : Outcome) : Prop where
  error_iff : ∀ x, outcome.2 = .error x ↔ t.hierarchy.Refuses t.policy step x
  unchanged_of_error : ∀ x, outcome.2 = .error x → outcome.1 = t
  hierarchy_of_ok : ∀ answer, outcome.2 = .ok answer →
    outcome.1.hierarchy = t.hierarchy.after step
  answers_of_ok : ∀ answer, outcome.2 = .ok answer → t.Answers step answer

/-- An attempt simulates a step when it fails where the step is refused and has
the effect of the step otherwise. -/
theorem simulates_attempt {α : Type} {result : Except TaxonomyError α}
    {f : α → Answer × Taxonomy}
    (herror : ∀ x, result = .error x ↔ t.hierarchy.Refuses t.policy step x)
    (hok : ∀ r, result = .ok r →
      (f r).2.hierarchy = t.hierarchy.after step ∧ t.Answers step (f r).1) :
    t.Simulates step (t.attempt (result.map f)) := by
  cases result with
  | error y =>
    constructor
    · intro x
      rw [← herror x]
      simp [attempt, Except.map]
    · intro x _
      rfl
    · intro answer hanswer
      cases hanswer
    · intro answer hanswer
      cases hanswer
  | ok r =>
    obtain ⟨hgraph, hanswers⟩ := hok r rfl
    constructor
    · intro x
      rw [← herror x]
      simp [attempt, Except.map]
    · intro x hx
      cases hx
    · intro answer _
      exact hgraph
    · intro answer hanswer
      cases hanswer
      exact hanswers

theorem simulates_addElement (t : Taxonomy) (a : Atom) :
    t.Simulates (.addVertex a) (t.effect (.addElement a)) where
  error_iff x := by
    constructor
    · intro hx
      cases hx
    · intro hx
      cases hx
  unchanged_of_error x hx := by cases hx
  hierarchy_of_ok answer _ := hierarchy_addElement
  answers_of_ok answer hanswer := by
    cases hanswer
    rfl

namespace Consistent

theorem simulates_removeElement (h : t.Consistent) (a : Atom) :
    t.Simulates (.removeVertex a) (t.effect (.removeElement a)) := by
  apply simulates_attempt
  · intro x
    exact removeElement_eq_error_iff
  · rintro ⟨e, t'⟩ hremove
    obtain ⟨he, -⟩ := removeElement_eq_ok_iff.1 hremove
    exact ⟨h.hierarchy_removeElement hremove, e, he, rfl⟩

theorem simulates_addEdge (h : t.Consistent) (parent child : Atom) :
    t.Simulates (.addEdge parent child) (t.attempt ((t.addEdge parent child).map (.done, ·))) := by
  apply simulates_attempt
  · intro x
    exact h.addEdge_eq_error_iff
  · intro t' hadd
    obtain ⟨-, hchild, -, rfl⟩ := addEdge_eq_ok_iff.1 hadd
    exact ⟨hierarchy_link hchild, rfl⟩

theorem simulates_removeEdge (h : t.Consistent) (parent child : Atom) :
    t.Simulates (.removeEdge parent child)
      (t.attempt ((t.removeEdge parent child).map (.done, ·))) := by
  apply simulates_attempt
  · intro x
    exact h.removeEdge_eq_error_iff
  · intro t' hremove
    obtain ⟨-, -, rfl⟩ := removeEdge_eq_ok_iff.1 hremove
    exact ⟨hierarchy_unlink, rfl⟩

theorem simulates_revise (h : t.Consistent) {revision : Revision}
    (hstep : revision.step? = some step) : t.Simulates step (t.revise revision) := by
  rw [revise_eq_effect]
  cases revision with
  | addElement a =>
    cases hstep
    exact simulates_addElement t a
  | removeElement a =>
    cases hstep
    exact h.simulates_removeElement a
  | addChild parent child =>
    cases hstep
    exact h.simulates_addEdge parent child
  | addParent child parent =>
    cases hstep
    exact h.simulates_addEdge parent child
  | removeChild parent child =>
    cases hstep
    exact h.simulates_removeEdge parent child
  | removeParent child parent =>
    cases hstep
    exact h.simulates_removeEdge parent child
  | _ => cases hstep

end Consistent

/-- Every revision of the list succeeds when its turn comes. -/
def Succeeds (t : Taxonomy) : List Revision → Prop
  | [] => True
  | revision :: rest =>
    (∃ answer, (t.revise revision).2 = .ok answer) ∧ (t.revise revision).1.Succeeds rest

/-- The outcome is that of the operands in turn, up to the first that fails. -/
structure StopsAtFirstError (t : Taxonomy) (operands : List Revision) (outcome : Outcome) :
    Prop where
  of_ok : ∀ answer, outcome.2 = .ok answer →
    answer = .done ∧ t.Succeeds operands ∧ outcome.1 = t.run operands
  of_error : ∀ x, outcome.2 = .error x → ∃ before failing after,
    operands = before ++ failing :: after ∧ t.Succeeds before ∧
      outcome.1 = t.run before ∧ ((t.run before).revise failing).2 = .error x

namespace StopsAtFirstError

theorem nil (t : Taxonomy) : t.StopsAtFirstError [] (t, .ok .done) where
  of_ok answer hanswer := by
    cases hanswer
    exact ⟨rfl, trivial, rfl⟩
  of_error x hx := by cases hx

theorem of_failing {revision : Revision} (rest : List Revision)
    (hrevise : (t.revise revision).2 = .error x) :
    t.StopsAtFirstError (revision :: rest) (t, .error x) where
  of_ok answer hanswer := by cases hanswer
  of_error y hy := by
    cases hy
    exact ⟨[], revision, rest, rfl, trivial, rfl, hrevise⟩

/-- A revision that succeeds is followed by what becomes of the rest. -/
theorem cons {revision : Revision} {rest : List Revision} {answer : Answer}
    (hrevise : t.revise revision = (t', .ok answer))
    (hrest : t'.StopsAtFirstError rest outcome) :
    t.StopsAtFirstError (revision :: rest) outcome := by
  have hsucceeds (revisions : List Revision) (h : t'.Succeeds revisions) :
      t.Succeeds (revision :: revisions) := by
    rw [Succeeds, hrevise]
    exact ⟨⟨answer, rfl⟩, h⟩
  have hrun (revisions : List Revision) : t'.run revisions = t.run (revision :: revisions) := by
    rw [run, run, List.foldl_cons, hrevise]
  constructor
  · intro last hlast
    obtain ⟨hdone, hall, hstate⟩ := hrest.of_ok last hlast
    exact ⟨hdone, hsucceeds rest hall, hstate.trans (hrun rest)⟩
  · intro x hx
    obtain ⟨before, failing, after, hsplit, hall, hstate, hfailing⟩ := hrest.of_error x hx
    refine ⟨revision :: before, failing, after, ?_, hsucceeds before hall, ?_, ?_⟩
    · rw [hsplit, List.cons_append]
    · exact hstate.trans (hrun before)
    · rw [← hrun before]
      exact hfailing

/-- An operation that is applied to each atom in turn, when one revision for
each atom has the outcome of the operation. -/
theorem eachUntilError {operation : Taxonomy → Atom → Except TaxonomyError Taxonomy}
    {revision : Atom → Revision}
    (hok : ∀ (t : Taxonomy) (a : Atom) (t' : Taxonomy), operation t a = .ok t' →
      ∃ answer, t.revise (revision a) = (t', .ok answer))
    (herror : ∀ (t : Taxonomy) (a : Atom) (x : TaxonomyError), operation t a = .error x →
      t.revise (revision a) = (t, .error x))
    (t : Taxonomy) (atoms : List Atom) :
    t.StopsAtFirstError (atoms.map revision) (t.eachUntilError operation atoms) := by
  induction atoms generalizing t with
  | nil => exact nil t
  | cons a atoms ih =>
    unfold Taxonomy.eachUntilError
    rw [List.map_cons]
    cases hoperation : operation t a with
    | error x =>
      have hrevise := herror t a x hoperation
      exact of_failing _ (congrArg Prod.snd hrevise)
    | ok t' =>
      obtain ⟨answer, hrevise⟩ := hok t a t' hoperation
      exact cons hrevise (ih t')

/-- An operation on edges, with no answer beyond its success. -/
theorem eachEdgeUntilError {operation : Taxonomy → Atom → Except TaxonomyError Taxonomy}
    {revision : Atom → Revision}
    (hrevise : ∀ (t : Taxonomy) (a : Atom),
      t.effect (revision a) = t.attempt ((operation t a).map (.done, ·)))
    (t : Taxonomy) (atoms : List Atom) :
    t.StopsAtFirstError (atoms.map revision) (t.eachUntilError operation atoms) := by
  apply eachUntilError
  · intro t a t' hoperation
    refine ⟨.done, ?_⟩
    rw [revise_eq_effect, hrevise, hoperation]
    rfl
  · intro t a x hoperation
    rw [revise_eq_effect, hrevise, hoperation]
    rfl

theorem addElements (t : Taxonomy) (atoms : List Atom) :
    t.StopsAtFirstError (atoms.map .addElement) (t.effect (.addElements atoms)) := by
  apply eachUntilError
  · intro t a t' hoperation
    cases hoperation
    exact ⟨_, revise_eq_effect t (.addElement a)⟩
  · intro t a x hoperation
    cases hoperation

theorem removeElements (t : Taxonomy) (atoms : List Atom) :
    t.StopsAtFirstError (atoms.map .removeElement) (t.effect (.removeElements atoms)) := by
  apply eachUntilError
  · intro t a t' hoperation
    obtain ⟨⟨e, t₁⟩, hremove, rfl⟩ := exists_eq_ok_of_map_eq_ok hoperation
    refine ⟨.removed e, ?_⟩
    rw [revise_eq_effect, effect, hremove]
    rfl
  · intro t a x hoperation
    cases hremove : t.removeElement a with
    | error y =>
      rw [hremove] at hoperation
      cases hoperation
      rw [revise_eq_effect, effect, hremove]
      rfl
    | ok removed =>
      rw [hremove] at hoperation
      cases hoperation

/-- A revision that is none of one element or edge works through a list. -/
theorem revise (t : Taxonomy) {revision : Revision} (hplural : revision.step? = none) :
    t.StopsAtFirstError revision.operands (t.revise revision) := by
  rw [revise_eq_effect]
  cases revision with
  | addElements atoms => exact addElements t atoms
  | removeElements atoms => exact removeElements t atoms
  | addChildren parent children => exact eachEdgeUntilError (fun _ _ => rfl) t children
  | addParents child parents => exact eachEdgeUntilError (fun _ _ => rfl) t parents
  | removeChildren parent children => exact eachEdgeUntilError (fun _ _ => rfl) t children
  | removeParents child parents => exact eachEdgeUntilError (fun _ _ => rfl) t parents
  | _ => cases hplural

end StopsAtFirstError

/-- A reachable taxonomy refines its graph.  Edges join vertices; a revision of
one element or edge is the matching step of the graph; and a revision of a
list leaves what its operands before the first failing one lead to. -/
theorem Reachable.refines_hierarchy (h : t.Reachable) (revision : Revision) :
    (∀ child parent, t.hierarchy.Edge child parent →
      child ∈ t.hierarchy.vertices ∧ parent ∈ t.hierarchy.vertices) ∧
      (t.revise revision).1.policy = t.policy ∧
      (∀ step, revision.step? = some step → t.Simulates step (t.revise revision)) ∧
      (revision.step? = none →
        t.StopsAtFirstError revision.operands (t.revise revision)) := by
  have hconsistent : t.Consistent := .of_reachable h
  refine ⟨?_, ?_, ?_, ?_⟩
  · intro child parent hedge
    exact hconsistent.mem_of_edge hedge
  · exact policy_of_changes (changes_revise t revision)
  · intro step hstep
    exact hconsistent.simulates_revise hstep
  · exact StopsAtFirstError.revise t

/-- The settings under which cycles are rejected. -/
def rejecting : Settings where
  cyclePolicy := { name := "cycle_policy", min := .permit, max := .reject, value := .reject }

/-- Three elements below one another, where cycles are rejected. -/
def chain : Taxonomy :=
  (ofSettings rejecting).run
    [.addElements [⟨"p"⟩, ⟨"q"⟩, ⟨"r"⟩], .addChildren ⟨"p"⟩ [⟨"q"⟩], .addParent ⟨"r"⟩ ⟨"q"⟩]

theorem refines_hierarchy_chain :
    chain.Reachable ∧
      chain.Simulates (.addEdge ⟨"r"⟩ ⟨"p"⟩) (chain.revise (.addParent ⟨"p"⟩ ⟨"r"⟩)) ∧
      (chain.revise (.addParent ⟨"p"⟩ ⟨"r"⟩)).2 = .error (.cycle ⟨"r"⟩ ⟨"p"⟩) := by
  have hreachable : chain.Reachable := (Reachable.ofSettings _).run _
  obtain ⟨-, -, hsimulates, -⟩ :=
    Reachable.refines_hierarchy hreachable (.addParent ⟨"p"⟩ ⟨"r"⟩)
  refine ⟨hreachable, hsimulates _ rfl, ?_⟩
  decide +kernel

end Taxonomy

end Subsumption
