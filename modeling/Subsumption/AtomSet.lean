import Std.Data.ExtTreeSet
import Subsumption.Atom
/-!
Finite sets of atoms, listed in order.
-/

namespace Subsumption

/-- A finite set of atoms. -/
abbrev AtomSet := Std.ExtTreeSet Atom

namespace AtomSet

def unionAll (sets : List AtomSet) : AtomSet := sets.foldr (· ∪ ·) ∅

def names (s : AtomSet) : List String := s.toList.map Atom.name

@[simp] theorem mem_unionAll {a : Atom} {sets : List AtomSet} :
    a ∈ unionAll sets ↔ ∃ s ∈ sets, a ∈ s := by
  induction sets with
  | nil => simp [unionAll]
  | cons s sets ih =>
    have hcons : unionAll (s :: sets) = s ∪ unionAll sets := rfl
    simp [hcons, ih, Std.ExtTreeSet.mem_union_iff]

theorem mem_insert_iff {s : AtomSet} {a b : Atom} : b ∈ s.insert a ↔ b = a ∨ b ∈ s := by
  rw [Std.ExtTreeSet.mem_insert, Std.LawfulEqOrd.compare_eq_iff_eq, eq_comm]

theorem mem_erase_iff {s : AtomSet} {a b : Atom} : b ∈ s.erase a ↔ b ∈ s ∧ b ≠ a := by
  rw [Std.ExtTreeSet.mem_erase, Ne, Std.LawfulEqOrd.compare_eq_iff_eq, eq_comm, and_comm]

theorem mem_ite_insert {s : AtomSet} {a b : Atom} {c : Prop} [Decidable c] :
    b ∈ (if c then s.insert a else s) ↔ (b = a ∧ c) ∨ b ∈ s := by
  split
  · next h => rw [mem_insert_iff, and_iff_left h]
  · next h => simp [h]

theorem mem_ite_erase {s : AtomSet} {a b : Atom} {c : Prop} [Decidable c] :
    b ∈ (if c then s.erase a else s) ↔ b ∈ s ∧ ¬ (b = a ∧ c) := by
  split
  · next h => rw [mem_erase_iff, and_iff_left h]
  · next h => simp [h]

/-- A set is as large as a part of it and what is outside the part. -/
theorem size_diff_add_size {u s : AtomSet} (hsub : ∀ a, a ∈ s → a ∈ u) :
    (u \ s).size + s.size = u.size := by
  have hdisjoint : ∀ a, a ∈ u \ s → ¬ a ∈ s := fun a h => (Std.ExtTreeSet.mem_diff_iff.1 h).2
  have hunion : (u \ s) ∪ s = u := by
    apply Std.ExtTreeSet.ext_mem
    intro a
    simp only [Std.ExtTreeSet.mem_diff_iff, Std.ExtTreeSet.mem_union_iff]
    have := hsub a
    by_cases hs : a ∈ s <;> simp_all
  rw [← Std.ExtTreeSet.size_union_of_not_mem hdisjoint, hunion]

/-- Moving what is new in `s` into `r` leaves that much less of `u` outside. -/
theorem size_diff_union {u r s : AtomSet} (hsub : ∀ a, a ∈ s → a ∈ u) :
    (u \ (r ∪ (s \ r))).size + (s \ r).size = (u \ r).size := by
  have houtside : u \ (r ∪ (s \ r)) = (u \ r) \ (s \ r) := by
    apply Std.ExtTreeSet.ext_mem
    intro a
    simp only [Std.ExtTreeSet.mem_diff_iff, Std.ExtTreeSet.mem_union_iff, not_or, and_assoc]
  rw [houtside]
  apply size_diff_add_size
  intro a ha
  obtain ⟨hs, hr⟩ := Std.ExtTreeSet.mem_diff_iff.1 ha
  exact Std.ExtTreeSet.mem_diff_iff.2 ⟨hsub a hs, hr⟩

end AtomSet

end Subsumption
