import Mathlib.Data.Fintype.EquivFin
import Mathlib.Logic.Relation
import Mathlib.Order.WellFounded
import Subsumption.Taxonomy.Diagram
/-!
Cycles of a diagram.  Striking edges that no edge continues never breaks a cycle, and
what is left can be continued without end, so something is left exactly when there is
a cycle.
-/

namespace Subsumption

namespace Diagram

open Relation

/-- An edge leads from the first index to the second. -/
def Edge (d : Diagram) (i j : Nat) : Prop := (i, j) ∈ d.edges

/-- Some index can be reached from itself along one edge or more. -/
def Cyclic (d : Diagram) : Prop := ∃ i, TransGen d.Edge i i

/-- Every edge joins two nodes. -/
def WellFormed (d : Diagram) : Prop :=
  ∀ edge ∈ d.edges, edge.1 < d.nodes.length ∧ edge.2 < d.nodes.length

/-- The test is true of a well-formed diagram exactly when there is a cycle, be it
an edge from a node to itself. -/
def FindsCycles (isCyclic : Diagram → Bool) : Prop :=
  ∀ d, d.WellFormed → (isCyclic d = true ↔ d.Cyclic)

variable {d : Diagram} {edges : List (Nat × Nat)} {edge : Nat × Nat}

theorem mem_continued :
    edge ∈ continued edges ↔ edge ∈ edges ∧ ∃ next ∈ edges, next.1 = edge.2 := by
  simp [continued]

theorem mem_of_mem_core (h : edge ∈ core edges) : edge ∈ edges := by
  fun_induction core edges with
  | case1 edges _ ih => exact (mem_continued.1 (ih h)).1
  | case2 edges _ => exact h

/-- Edges that continue one another are never struck. -/
theorem mem_core_of_continued {P : Nat × Nat → Prop}
    (hnext : ∀ edge ∈ edges, P edge → ∃ next ∈ edges, P next ∧ next.1 = edge.2)
    (hmem : edge ∈ edges) (hedge : P edge) : edge ∈ core edges := by
  fun_induction core edges with
  | case1 edges _ ih =>
    have hkept : ∀ edge ∈ edges, P edge → edge ∈ continued edges := by
      intro edge hmem hedge
      obtain ⟨next, hmem', -, hends⟩ := hnext edge hmem hedge
      exact mem_continued.2 ⟨hmem, next, hmem', hends⟩
    apply ih
    · intro edge hmem hedge
      obtain ⟨next, hmem', hP, hends⟩ := hnext edge (mem_continued.1 hmem).1 hedge
      exact ⟨next, hkept next hmem' hP, hP, hends⟩
    · exact hkept edge hmem hedge
  | case2 => exact hmem

/-- Every edge that is left is continued by one that is left. -/
theorem exists_next_of_mem_core (h : edge ∈ core edges) :
    ∃ next ∈ core edges, next.1 = edge.2 := by
  fun_induction core edges with
  | case1 edges _ ih => exact ih h
  | case2 edges hsame =>
    have hall : continued edges = edges :=
      List.filter_sublist.eq_of_length_le (Nat.le_of_not_lt hsame)
    rw [← hall] at h
    exact (mem_continued.1 h).2

/-- On finitely many things, going on and on leads round a cycle. -/
theorem exists_transGen_self {α : Type} [Finite α] [Nonempty α] {r : α → α → Prop}
    (h : ∀ a, ∃ b, r a b) : ∃ a, TransGen r a a := by
  by_contra hnone
  have hirrefl : Std.Irrefl (Function.swap (TransGen r)) := ⟨fun a ha => hnone ⟨a, ha⟩⟩
  have htrans : IsTrans α (Function.swap (TransGen r)) := ⟨fun _ _ _ hab hbc => hbc.trans hab⟩
  have hwf := Finite.wellFounded_of_trans_of_irrefl (Function.swap (TransGen r))
  obtain ⟨a, -, hlast⟩ := hwf.has_min Set.univ Set.univ_nonempty
  obtain ⟨b, hab⟩ := h a
  exact hlast b (Set.mem_univ b) (.single hab)

theorem core_ne_nil_of_cyclic (h : d.Cyclic) : core d.edges ≠ [] := by
  obtain ⟨i, hcycle⟩ := h
  obtain ⟨j, hedge, hback⟩ := TransGen.head'_iff.1 hcycle
  -- The edges that lie on a cycle continue one another.
  have hcore : (i, j) ∈ core d.edges := by
    apply mem_core_of_continued (P := fun edge => ReflTransGen d.Edge edge.2 edge.1) ?_ hedge hback
    rintro ⟨a, b⟩ hab hreturn
    rcases ReflTransGen.cases_head hreturn with hloop | ⟨c, hbc, hrest⟩
    · exact ⟨(a, b), hab, hreturn, hloop.symm⟩
    · exact ⟨(b, c), hbc, hrest.tail hab, rfl⟩
  exact List.ne_nil_of_mem hcore

theorem cyclic_of_core_ne_nil (h : core d.edges ≠ []) : d.Cyclic := by
  obtain ⟨edge, hedge⟩ := List.exists_mem_of_ne_nil _ h
  have hnonempty : Nonempty {edge // edge ∈ core d.edges} := ⟨⟨edge, hedge⟩⟩
  have hnext : ∀ edge : {edge // edge ∈ core d.edges},
      ∃ next : {edge // edge ∈ core d.edges}, next.1.1 = edge.1.2 := by
    rintro ⟨edge, hedge⟩
    obtain ⟨next, hmem, hends⟩ := exists_next_of_mem_core hedge
    exact ⟨⟨next, hmem⟩, hends⟩
  obtain ⟨⟨edge, hmem⟩, hcycle⟩ := exists_transGen_self hnext
  refine ⟨edge.1, TransGen.lift (fun edge => edge.1.1) ?_ _ _ hcycle⟩
  rintro ⟨⟨a, b⟩, hab⟩ ⟨⟨b', c⟩, -⟩ rfl
  exact mem_of_mem_core hab

theorem isAcyclic_iff : d.isAcyclic = true ↔ ¬ d.Cyclic := by
  rw [isAcyclic, List.isEmpty_iff]
  constructor
  · intro hnil hcyclic
    exact core_ne_nil_of_cyclic hcyclic hnil
  · intro hacyclic
    by_contra hcore
    exact hacyclic (cyclic_of_core_ne_nil hcore)

theorem findsCycles_not_isAcyclic : FindsCycles fun d => !d.isAcyclic := by
  intro d _
  rw [Bool.not_eq_true', ← Bool.not_eq_true, isAcyclic_iff, not_not]

end Diagram

end Subsumption
