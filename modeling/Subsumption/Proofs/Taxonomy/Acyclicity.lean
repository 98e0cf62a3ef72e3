import Subsumption.Proofs.Taxonomy.RecordFaults
import Subsumption.Proofs.Taxonomy.Refinement
/-!
Cycles and the policy on them.  A new edge closes a cycle of an acyclic graph exactly
when its child could be reached from its parent before, which is what is tested where
cycles are rejected.
-/

namespace Subsumption

open Relation

namespace Hierarchy

variable {g g' : Hierarchy} {a b parent child : Atom}

theorem edge_after_addEdge {c : Atom} : (g.after (.addEdge parent child)).Edge b c ↔
    (b = child ∧ c = parent) ∨ g.Edge b c := by
  change (b, c) = (child, parent) ∨ (b, c) ∈ g.edges ↔ _
  rw [Prod.mk.injEq]
  rfl

/-- A path with a new edge can be cut at the first and at the last use of the
edge. -/
theorem transGen_addEdge_iff : TransGen (g.after (.addEdge parent child)).Edge a b ↔
    TransGen g.Edge a b ∨ (ReflTransGen g.Edge a child ∧ ReflTransGen g.Edge parent b) := by
  have hkept : ∀ x y, g.Edge x y → (g.after (.addEdge parent child)).Edge x y := by
    intro x y hedge
    exact edge_after_addEdge.2 (Or.inr hedge)
  constructor
  · intro hpath
    induction hpath with
    | single hedge =>
      rcases edge_after_addEdge.1 hedge with ⟨rfl, rfl⟩ | hold
      · exact Or.inr ⟨.refl, .refl⟩
      · exact Or.inl (.single hold)
    | tail _ hedge ih =>
      rcases edge_after_addEdge.1 hedge with ⟨rfl, rfl⟩ | hold
      · rcases ih with havoids | ⟨hfirst, -⟩
        · exact Or.inr ⟨havoids.to_reflTransGen, .refl⟩
        · exact Or.inr ⟨hfirst, .refl⟩
      · rcases ih with havoids | ⟨hfirst, hlast⟩
        · exact Or.inl (havoids.tail hold)
        · exact Or.inr ⟨hfirst, hlast.tail hold⟩
  · rintro (havoids | ⟨hfirst, hlast⟩)
    · exact TransGen.mono hkept _ _ havoids
    · have hnew : (g.after (.addEdge parent child)).Edge child parent :=
        edge_after_addEdge.2 (Or.inl ⟨rfl, rfl⟩)
      have hthrough : TransGen (g.after (.addEdge parent child)).Edge a parent :=
        TransGen.tail' (ReflTransGen.mono hkept _ _ hfirst) hnew
      exact hthrough.trans_left (ReflTransGen.mono hkept _ _ hlast)

/-- A new edge closes a cycle of an acyclic graph exactly when its child can be
reached from its parent already. -/
theorem cyclic_addEdge_iff (hacyclic : ¬ g.Cyclic) :
    (g.after (.addEdge parent child)).Cyclic ↔ g.ClosesCycle parent child := by
  constructor
  · rintro ⟨a, hcycle⟩
    rcases transGen_addEdge_iff.1 hcycle with hold | ⟨hfirst, hlast⟩
    · exact absurd ⟨a, hold⟩ hacyclic
    · exact hlast.trans hfirst
  · intro hcloses
    exact ⟨child, transGen_addEdge_iff.2 (Or.inr ⟨.refl, hcloses⟩)⟩

/-- A graph with fewer edges has no cycle of its own. -/
theorem not_cyclic_mono (hsub : ∀ b c, g'.Edge b c → g.Edge b c) (hacyclic : ¬ g.Cyclic) :
    ¬ g'.Cyclic := by
  rintro ⟨a, hcycle⟩
  exact hacyclic ⟨a, TransGen.mono hsub _ _ hcycle⟩

end Hierarchy

namespace Taxonomy

variable {t t' : Taxonomy} {policy : CyclePolicy} {parent child : Atom}

theorem not_cyclic_empty (policy : CyclePolicy) : ¬ ({ policy } : Taxonomy).hierarchy.Cyclic := by
  rintro ⟨a, hcycle⟩
  obtain ⟨b, hedge, -⟩ := TransGen.head'_iff.1 hcycle
  exact Std.ExtTreeMap.not_mem_empty (mem_of_mem_parents hedge)

namespace Consistent

/-- No change closes a cycle where cycles are rejected. -/
theorem not_cyclic_of_change (h : t.Consistent) (hchange : Change t t')
    (hpolicy : t.policy = .reject) (hacyclic : ¬ t.hierarchy.Cyclic) :
    ¬ t'.hierarchy.Cyclic := by
  cases hchange with
  | addElement a =>
    rw [hierarchy_addElement]
    exact Hierarchy.not_cyclic_mono (fun _ _ hedge => hedge) hacyclic
  | removeElement hremove =>
    rw [h.hierarchy_removeElement hremove]
    exact Hierarchy.not_cyclic_mono (fun _ _ hedge => hedge.1) hacyclic
  | addEdge hadd =>
    obtain ⟨hparent, hchild, hopen, rfl⟩ := addEdge_eq_ok_iff.1 hadd
    obtain ⟨closes, hrun, hiff⟩ := h.exists_closesCycle _ hparent
    rw [hopen hpolicy] at hrun
    cases hrun
    rw [hierarchy_link hchild, Hierarchy.cyclic_addEdge_iff hacyclic]
    intro hcloses
    exact absurd (hiff.2 hcloses) Bool.false_ne_true
  | removeEdge hremove =>
    obtain ⟨-, -, rfl⟩ := removeEdge_eq_ok_iff.1 hremove
    rw [hierarchy_unlink]
    exact Hierarchy.not_cyclic_mono (fun _ _ hedge => hedge.1) hacyclic

theorem not_cyclic_of_changes (h : t.Consistent) (hchanges : Changes t t')
    (hpolicy : t.policy = .reject) (hacyclic : ¬ t.hierarchy.Cyclic) :
    ¬ t'.hierarchy.Cyclic := by
  induction hchanges with
  | refl => exact hacyclic
  | tail hbefore hchange ih =>
    have hkept := (policy_of_changes hbefore).trans hpolicy
    exact (h.changes hbefore).not_cyclic_of_change hchange hkept ih

/-- An edge between elements is added unless it is refused for a cycle. -/
theorem addChild_of_not_refuses (h : t.Consistent) (hparent : parent ∈ t) (hchild : child ∈ t)
    (hopen : ¬ t.hierarchy.ClosesCycle parent child) :
    (t.revise (.addChild parent child)).2 = .ok .done := by
  have hsimulates : t.Simulates (.addEdge parent child) (t.revise (.addChild parent child)) :=
    h.simulates_revise rfl
  cases houtcome : (t.revise (.addChild parent child)).2 with
  | ok answer => rw [hsimulates.answers_of_ok answer houtcome]
  | error x =>
    have hrefuses := (hsimulates.error_iff x).1 houtcome
    cases hrefuses with
    | addEdge_parent hnone => exact absurd hparent hnone
    | addEdge_child _ hnone => exact absurd hchild hnone
    | addEdge_cycle _ _ _ hcloses => exact absurd hcloses hopen

end Consistent

/-- Where cycles are rejected none is built up from nothing. -/
theorem not_cyclic_of_changes_empty (hchanges : Changes { policy } t) (hpolicy : policy = .reject) :
    ¬ t.hierarchy.Cyclic :=
  (consistent_empty policy).not_cyclic_of_changes hchanges hpolicy (not_cyclic_empty policy)

theorem Reachable.not_cyclic (h : t.Reachable) (hpolicy : t.policy = .reject) :
    ¬ t.hierarchy.Cyclic := by
  obtain ⟨policy, hchanges⟩ := h.exists_changes
  exact not_cyclic_of_changes_empty hchanges ((policy_of_changes hchanges).symm.trans hpolicy)

/-- Cycles are rejected, there is none, and nothing but a cycle is rejected
between elements. -/
structure RejectsCycles (t : Taxonomy) : Prop where
  policy_eq : t.policy = .reject
  acyclic : ∀ a, ¬ TransGen t.Edge a a
  cycle_iff : ∀ parent child, parent ∈ t → child ∈ t →
    ((t.revise (.addChild parent child)).2 = .error (.cycle parent child) ↔
      (t.hierarchy.after (.addEdge parent child)).Cyclic)
  ok_of_acyclic : ∀ parent child, parent ∈ t → child ∈ t →
    ¬ (t.hierarchy.after (.addEdge parent child)).Cyclic →
      (t.revise (.addChild parent child)).2 = .ok .done
  /-- An edge that is there already, or that shortens a path, is no cycle. -/
  ok_of_path : ∀ parent child, TransGen t.Edge child parent →
    (t.revise (.addChild parent child)).2 = .ok .done

theorem Consistent.rejectsCycles (h : t.Consistent) (hpolicy : t.policy = .reject)
    (hacyclic : ¬ t.hierarchy.Cyclic) : t.RejectsCycles where
  policy_eq := hpolicy
  acyclic a hcycle := hacyclic ⟨a, hcycle⟩
  cycle_iff parent child hparent hchild := by
    rw [Hierarchy.cyclic_addEdge_iff hacyclic]
    have hsimulates : t.Simulates (.addEdge parent child) (t.revise (.addChild parent child)) :=
      h.simulates_revise rfl
    have herror := hsimulates.error_iff (.cycle parent child)
    constructor
    · intro hrefused
      cases herror.1 hrefused with
      | addEdge_cycle _ _ _ hcloses => exact hcloses
    · intro hcloses
      exact herror.2 (.addEdge_cycle hparent hchild hpolicy hcloses)
  ok_of_acyclic parent child hparent hchild hafter := by
    rw [Hierarchy.cyclic_addEdge_iff hacyclic] at hafter
    exact h.addChild_of_not_refuses hparent hchild hafter
  ok_of_path parent child hpath := by
    obtain ⟨b, hfirst, -⟩ := TransGen.head'_iff.1 hpath
    obtain ⟨c, -, hlast⟩ := TransGen.tail'_iff.1 hpath
    apply h.addChild_of_not_refuses (h.mem_of_edge hlast).2 (h.mem_of_edge hfirst).1
    intro hcloses
    exact hacyclic ⟨child, hpath.trans_left hcloses⟩

theorem not_refuses_cycle {g : Hierarchy} {step : Hierarchy.Step} :
    ¬ g.Refuses .permit step (.cycle parent child) := by
  intro hrefuses
  cases hrefuses with
  | addEdge_cycle _ _ hpolicy _ => cases hpolicy

theorem exists_step?_of_mem_operands {revision failing : Revision}
    (hmem : failing ∈ revision.operands) (hplural : revision.step? = none) :
    ∃ step, failing.step? = some step := by
  cases revision with
  | addElements | removeElements | addChildren | addParents | removeChildren | removeParents =>
    obtain ⟨a, -, rfl⟩ := List.mem_map.1 hmem
    exact ⟨_, rfl⟩
  | _ => cases hplural

theorem Consistent.revise_ne_cycle (h : t.Consistent) (hpolicy : t.policy = .permit)
    (revision : Revision) : (t.revise revision).2 ≠ .error (.cycle parent child) := by
  intro herror
  cases hstep : revision.step? with
  | some step =>
    have hrefuses := ((h.simulates_revise hstep).error_iff _).1 herror
    rw [hpolicy] at hrefuses
    exact not_refuses_cycle hrefuses
  | none =>
    -- The error is that of the first operand that fails, on the taxonomy that it fails on.
    obtain ⟨before, failing, after, hsplit, -, -, hfailing⟩ :=
      (StopsAtFirstError.revise t hstep).of_error _ herror
    have hmem : failing ∈ revision.operands := by
      rw [hsplit]
      exact List.mem_append_right _ List.mem_cons_self
    obtain ⟨step, hsingle⟩ := exists_step?_of_mem_operands hmem hstep
    have hchanges := changes_run t before
    have hrefuses := (((h.changes hchanges).simulates_revise hsingle).error_iff _).1 hfailing
    rw [policy_of_changes hchanges, hpolicy] at hrefuses
    exact not_refuses_cycle hrefuses

/-- No operation on the taxonomy answers with a cycle. -/
structure NeverCycle (t : Taxonomy) : Prop where
  revise : ∀ revision parent child, (t.revise revision).2 ≠ .error (.cycle parent child)
  element : ∀ a parent child, t.element a ≠ .error (.cycle parent child)
  ancestors : ∀ a parent child, t.ancestors a ≠ .error (.cycle parent child)
  descendants : ∀ a parent child, t.descendants a ≠ .error (.cycle parent child)

theorem Consistent.neverCycle (h : t.Consistent) (hpolicy : t.policy = .permit) :
    t.NeverCycle where
  revise revision parent child := h.revise_ne_cycle hpolicy revision
  element a parent child herror := by cases (element_eq_error_iff.1 herror).2
  ancestors a parent child herror := by
    cases ((reach_eq_error_iff h.mem_of_parent).1 herror).2
  descendants a parent child herror := by
    cases ((reach_eq_error_iff h.mem_of_child).1 herror).2

theorem toTaxonomy_ne_cycle {r : Record} (hpolicy : r.policy = .permit) :
    r.toTaxonomy ≠ .error (.cycle parent child) := by
  intro herror
  cases Record.fault_of_toTaxonomy_eq_error herror with
  | cycle hreject _ _ _ =>
    rw [hpolicy] at hreject
    cases hreject

/-- The taxonomies made with a policy: new ones, and those read from a record. -/
inductive MadeWith (policy : CyclePolicy) : Taxonomy → Prop
  | ofSettings {settings : Settings} : settings.cyclePolicy.value = policy →
      MadeWith policy (ofSettings settings)
  | ofRecord {r : Record} {t : Taxonomy} : r.policy = policy → r.toTaxonomy = .ok t →
      MadeWith policy t

theorem MadeWith.changes (h : MadeWith policy t) : Changes { policy } t := by
  cases h with
  | ofSettings hpolicy =>
    subst hpolicy
    exact .refl
  | ofRecord hpolicy hread =>
    subst hpolicy
    exact changes_of_toTaxonomy_eq_ok hread

/-- Under the rejecting policy a run of revisions never leads to a cycle, and
an edge is refused exactly when it would close one.  Under the permitting
policy nothing is ever refused for a cycle. -/
theorem cycles_follow_policy :
    (∀ t, MadeWith .reject t → ∀ revisions, (t.run revisions).RejectsCycles) ∧
      (∀ t, MadeWith .permit t → ∀ revisions, (t.run revisions).NeverCycle) ∧
      (∀ r : Record, r.policy = .permit → ∀ parent child,
        r.toTaxonomy ≠ .error (.cycle parent child)) := by
  refine ⟨?_, ?_, ?_⟩
  · intro t hmade revisions
    have hchanges := hmade.changes.trans (changes_run t revisions)
    have hacyclic := not_cyclic_of_changes_empty hchanges rfl
    exact ((consistent_empty .reject).changes hchanges).rejectsCycles
      (policy_of_changes hchanges) hacyclic
  · intro t hmade revisions
    have hchanges := hmade.changes.trans (changes_run t revisions)
    exact ((consistent_empty .permit).changes hchanges).neverCycle (policy_of_changes hchanges)
  · intro r hpolicy parent child
    exact toTaxonomy_ne_cycle hpolicy

/-- A record in which an element is its own parent. -/
def loopRecord : Record where
  policy := .permit
  elements := (∅ : Elements).insert ⟨"p"⟩ { children := {⟨"p"⟩}, parents := {⟨"p"⟩} }

theorem cycles_follow_policy_chain_loop :
    MadeWith .reject (ofSettings rejecting) ∧ chain.RejectsCycles ∧
      MadeWith .permit ∅ ∧ (run ∅ loopRevisions).NeverCycle ∧
      loopRecord.policy = .permit ∧ loopRecord.toTaxonomy ≠ .error (.cycle ⟨"p"⟩ ⟨"p"⟩) ∧
      (chain.revise (.addChild ⟨"r"⟩ ⟨"p"⟩)).2 = .error (.cycle ⟨"r"⟩ ⟨"p"⟩) ∧
      (chain.revise (.addChild ⟨"p"⟩ ⟨"r"⟩)).2 = .ok .done := by
  obtain ⟨hreject, hpermit, hread⟩ := cycles_follow_policy
  have hrejecting : MadeWith .reject (ofSettings rejecting) := .ofSettings rfl
  have hpermitting : MadeWith .permit ∅ := .ofSettings rfl
  refine ⟨hrejecting, hreject _ hrejecting _, hpermitting, hpermit _ hpermitting _, rfl,
    hread loopRecord rfl _ _, ?_, ?_⟩
  · decide +kernel
  · decide +kernel

end Taxonomy

end Subsumption
