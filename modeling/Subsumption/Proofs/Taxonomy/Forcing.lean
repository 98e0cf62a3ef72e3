import Subsumption.Formula.Evaluation
import Subsumption.Proofs.Taxonomy.Closure
import Subsumption.Taxonomy.Inference
/-!
What a literal forces along the edges: truth is carried up and falsity down.  The
literals inferred from some conjuncts are those whose sign is carried to them, along
one edge or more.
-/

namespace Subsumption

namespace Taxonomy

open Relation

/-- The sign is carried along an edge from the first atom to the second. -/
def Carries (t : Taxonomy) : Bool → Atom → Atom → Prop
  | true, child, parent => t.Edge child parent
  | false, parent, child => t.Edge child parent

variable {t : Taxonomy} {v : Valuation} {sign : Bool} {a b : Atom}

theorem Consistent.mem_of_carries (h : t.Consistent) (hcarries : t.Carries sign a b) : a ∈ t := by
  cases sign with
  | true => exact (h.mem_of_edge hcarries).1
  | false => exact (h.mem_of_edge hcarries).2

theorem constraints_eq_conj_map : t.constraints =
    .conj (t.edgeList.map fun edge => .imp (.atom edge.1) (.atom edge.2)) := by
  simp [constraints, edgeList, List.map_flatMap, Function.comp_def]

/-- The constraints are true when each edge has a false child or a true parent. -/
theorem eval_constraints_iff_edge :
    t.constraints.eval v = some true ↔
      ∀ child parent, t.Edge child parent → v child = some false ∨ v parent = some true := by
  have himp (edge : Atom × Atom) :
      (Formula.imp (.atom edge.1) (.atom edge.2)).eval v = some true ↔
        v edge.1 = some false ∨ v edge.2 = some true := by
    rw [Formula.eval_imp, Formula.eval_atom, Formula.eval_atom, Truth.imp_eq_some_true]
  rw [constraints_eq_conj_map, Formula.eval_conj, Truth.all_eq_some_true]
  simp only [List.forall_mem_map, himp, Prod.forall, mem_edgeList]

/-- It is enough to look at the edges in one direction, whichever it is. -/
theorem eval_constraints_iff_carries (sign : Bool) :
    t.constraints.eval v = some true ↔
      ∀ a b, t.Carries sign a b → v a = some (!sign) ∨ v b = some sign := by
  rw [eval_constraints_iff_edge]
  cases sign with
  | true => rfl
  | false =>
    constructor
    · intro h parent child hedge
      exact (h child parent hedge).symm
    · intro h child parent hedge
      exact (h parent child hedge).symm

/-- Under the constraints a sign is carried any number of edges, from an atom
that does not have the other sign. -/
theorem eq_some_of_carried (hv : t.constraints.eval v = some true)
    (hpath : TransGen (t.Carries sign) a b) (ha : v a ≠ some (!sign)) : v b = some sign := by
  rw [eval_constraints_iff_carries sign] at hv
  induction hpath with
  | single hcarries => exact (hv _ _ hcarries).resolve_left ha
  | tail _ hcarries ih =>
    apply (hv _ _ hcarries).resolve_left
    rw [ih]
    simp

/-- The search in the direction of a sign finds where the sign is carried to. -/
theorem Consistent.exists_carried (h : t.Consistent) (sign : Bool) (ha : a ∈ t) :
    ∃ s, (if sign then t.ancestors a else t.descendants a) = .ok s ∧
      ∀ b, b ∈ s ↔ TransGen (t.Carries sign) a b := by
  cases sign with
  | true => exact h.exists_ancestors ha
  | false =>
    obtain ⟨s, hs, hmem⟩ := h.exists_descendants ha
    refine ⟨s, hs, ?_⟩
    intro b
    rw [hmem b]
    exact transGen_swap.symm

/-- A literal forces the atoms that its sign is carried to.  On an atom that is
no element it forces nothing. -/
theorem Consistent.mem_forced_iff (h : t.Consistent) {l m : Literal} :
    m ∈ t.forced l ↔ m.sign = l.sign ∧ TransGen (t.Carries l.sign) l.atom m.atom := by
  obtain ⟨a, sign⟩ := l
  obtain ⟨b, sign'⟩ := m
  unfold forced
  by_cases ha : a ∈ t
  · obtain ⟨s, hs, hmem⟩ := h.exists_carried sign ha
    simp only [hs, ← hmem b, List.mem_map, Std.ExtTreeSet.mem_toList, Literal.mk.injEq]
    constructor
    · rintro ⟨c, hc, rfl, rfl⟩
      exact ⟨rfl, hc⟩
    · rintro ⟨rfl, hb⟩
      exact ⟨b, hb, rfl, rfl⟩
  · have hnone : (if sign then t.ancestors a else t.descendants a) = .error (.notFound a) := by
      cases sign with
      | true => exact reach_of_not_mem Element.parents ha
      | false => exact reach_of_not_mem Element.children ha
    simp only [hnone, List.not_mem_nil, false_iff]
    -- A sign is carried from elements only.
    rintro ⟨-, hpath⟩
    obtain ⟨c, hcarries, -⟩ := TransGen.head'_iff.1 hpath
    exact ha (h.mem_of_carries hcarries)

theorem mem_inferred_iff {conjuncts : List Formula} {m : Literal} :
    m ∈ t.inferred conjuncts ↔ ∃ l, Formula.ofLiteral l ∈ conjuncts ∧ m ∈ t.forced l := by
  rw [inferred, Std.ExtTreeSet.mem_ofList, List.contains_iff_mem, List.mem_flatMap]
  simp only [List.mem_filterMap, Formula.literal?_eq_some_iff, exists_eq_right]

end Taxonomy

end Subsumption
