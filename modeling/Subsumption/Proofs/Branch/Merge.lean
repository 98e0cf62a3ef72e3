import Mathlib.Tactic.ByContra
import Subsumption.Proofs.Branch.Containment
/-!
Merging as the join of branches.  The smaller branch is inserted into the larger, so
the two orders run through different literals; they agree because a merge is
determined by the valuations that contain it.
-/

namespace Subsumption

namespace Branch

variable {a b c : Branch} {x y z : Option Branch} {v : Valuation}

/-- The sign on either branch, on the first where both have one. -/
def eitherValue (a b : Branch) : Valuation := fun p => Option.or (a.value p) (b.value p)

theorem within_eitherValue (hopen : ∀ p s, a.value p = some s → b.value p ≠ some !s) :
    a.Within (eitherValue a b) ∧ b.Within (eitherValue a b) := by
  rw [within_iff, within_iff]
  constructor
  · intro p s ha
    simp [eitherValue, ha]
  · intro p s hb
    cases ha : a.value p with
    | none => simp [eitherValue, ha, hb]
    | some sign =>
      have hsign : sign = s := by
        by_contra hne
        apply hopen p sign ha
        rw [hb, Bool.eq_not_of_ne (Ne.symm hne)]
      simp [eitherValue, ha, hsign]

theorem merge?_eq_none_iff :
    a.merge? b = none ↔ ∃ p s, a.value p = some s ∧ b.value p = some !s := by
  constructor
  · intro hclosed
    by_contra hopen
    have hboth := within_eitherValue fun p s ha hb => hopen ⟨p, s, ha, hb⟩
    obtain ⟨c, hc, -⟩ := exists_merge?_within.2 hboth
    simp [hclosed] at hc
  · rintro ⟨p, s, ha, hb⟩
    by_contra hopen
    obtain ⟨c, hc⟩ := Option.ne_none_iff_exists'.1 hopen
    obtain ⟨hac, hbc⟩ := exists_merge?_within.1 ⟨c, hc, within_value c⟩
    have hpositive := within_iff.1 hac p s ha
    have hnegative := within_iff.1 hbc p (!s) hb
    simp [hpositive] at hnegative

/-- What contains an open merge contains both branches, and conversely. -/
theorem within_of_merge?_eq_some (hc : a.merge? b = some c) :
    c.Within v ↔ a.Within v ∧ b.Within v := by
  rw [← exists_merge?_within, hc]
  simp

/-- An open merge has exactly the signs of the two branches. -/
theorem value_of_merge?_eq_some (hc : a.merge? b = some c) (p : Atom) (s : Bool) :
    c.value p = some s ↔ a.value p = some s ∨ b.value p = some s := by
  constructor
  · intro hp
    have hopen : ∀ p s, a.value p = some s → b.value p ≠ some !s := by
      intro p s ha hb
      simp [merge?_eq_none_iff.2 ⟨p, s, ha, hb⟩] at hc
    have hwithin : c.Within (eitherValue a b) :=
      (within_of_merge?_eq_some hc).2 (within_eitherValue hopen)
    have heither : Option.or (a.value p) (b.value p) = some s := within_iff.1 hwithin p s hp
    rw [Option.or_eq_some_iff] at heither
    rcases heither with ha | ⟨-, hb⟩
    · exact Or.inl ha
    · exact Or.inr hb
  · obtain ⟨hac, hbc⟩ := (within_of_merge?_eq_some hc).1 (within_value c)
    rintro (ha | hb)
    · exact within_iff.1 hac p s ha
    · exact within_iff.1 hbc p s hb

/-- Inserts the literals in turn, and keeps the answer to each.  A literal that
is refused leaves the branch as it is. -/
def insertEach (b : Branch) : List Literal → List Bool × Branch
  | [] => ([], b)
  | l :: rest =>
    let (answers, c) := ((b.insert? l).getD b).insertEach rest
    ((b.insert? l).isSome :: answers, c)

/-- All of the literals can be inserted exactly when no insertion is refused. -/
theorem foldlM_insert?_eq_insertEach (literals : List Literal) (b : Branch) :
    literals.foldlM insert? b =
      if ∀ answer ∈ (b.insertEach literals).1, answer = true
        then some (b.insertEach literals).2 else none := by
  induction literals generalizing b with
  | nil => simp [insertEach]
  | cons l literals ih =>
    cases hl : b.insert? l with
    | none => simp [insertEach, hl]
    | some d => simp [insertEach, hl, ih]

/-- Whichever branch is the larger, the merge is what comes of inserting the
literals of the second into the first. -/
theorem merge?_eq_foldlM (a b : Branch) : a.merge? b = b.literals.foldlM insert? a := by
  apply eq_of_forall_within
  intro v
  rw [exists_merge?_within, exists_foldlM_insert?_within]
  rfl

/-- The merge of two branches that may have closed already, and then stay
closed. -/
def join? (x y : Option Branch) : Option Branch := x.bind fun a => y.bind a.merge?

theorem exists_join?_within :
    (∃ c, join? x y = some c ∧ c.Within v) ↔
      (∃ a, x = some a ∧ a.Within v) ∧ ∃ b, y = some b ∧ b.Within v := by
  cases x with
  | none => simp [join?]
  | some a =>
    cases y with
    | none => simp [join?]
    | some b => simpa [join?] using exists_merge?_within (a := a) (b := b) (v := v)

theorem join?_comm (x y : Option Branch) : join? x y = join? y x := by
  apply eq_of_forall_within
  intro v
  rw [exists_join?_within, exists_join?_within, and_comm]

theorem join?_assoc (x y z : Option Branch) : join? (join? x y) z = join? x (join? y z) := by
  apply eq_of_forall_within
  intro v
  simp only [exists_join?_within, and_assoc]

theorem join?_self (x : Option Branch) : join? x x = x := by
  apply eq_of_forall_within
  intro v
  rw [exists_join?_within, and_self_iff]

theorem some_empty_join? (x : Option Branch) : join? (some ∅) x = x := by
  apply eq_of_forall_within
  intro v
  rw [exists_join?_within]
  exact and_iff_right ⟨∅, rfl, within_empty v⟩

theorem merge?_comm (a b : Branch) : a.merge? b = b.merge? a := join?_comm (some a) (some b)

theorem empty_merge? (b : Branch) : (∅ : Branch).merge? b = some b := some_empty_join? (some b)

theorem ascending_literals (b : Branch) :
    b.literals.Pairwise fun l m => compare l.atom m.atom = .lt := by
  rw [literals, List.pairwise_map]
  exact Std.ExtTreeMap.ordered_keys_toList

theorem negate_not_mem_literals {l : Literal} (hl : l ∈ b.literals) : l.negate ∉ b.literals := by
  intro hnegate
  have hpositive : b.value l.atom = some l.sign := mem_literals.1 hl
  have hnegative : b.value l.atom = some !l.sign := mem_literals.1 hnegate
  simp [hpositive] at hnegative

/-- A merge is closed exactly when some atom has opposite signs on the two
branches, and otherwise has the signs of both.  It is what inserting the
literals of one branch into the other gives, when none is refused.  Merging is
commutative, associative and idempotent, with the empty branch as unit and
closure as zero.  However a branch was made, its literals are in strict order of
atom, each atom with one sign. -/
theorem merge?_isJoin :
    (∀ a b : Branch, a.merge? b = none ↔ ∃ p s, a.value p = some s ∧ b.value p = some !s) ∧
    (∀ a b c : Branch, a.merge? b = some c →
      ∀ p s, c.value p = some s ↔ a.value p = some s ∨ b.value p = some s) ∧
    (∀ a b : Branch, a.merge? b =
      if ∀ answer ∈ (a.insertEach b.literals).1, answer = true
        then some (a.insertEach b.literals).2 else none) ∧
    (∀ x y, join? x y = join? y x) ∧
    (∀ x y z, join? (join? x y) z = join? x (join? y z)) ∧
    (∀ x, join? x x = x) ∧ (∀ x, join? (some ∅) x = x) ∧ (∀ x, join? none x = none) ∧
    (∀ b : Branch, (b.literals.Pairwise fun l m => compare l.atom m.atom = .lt) ∧
      ∀ l ∈ b.literals, l.negate ∉ b.literals) := by
  refine ⟨fun _ _ => merge?_eq_none_iff, fun _ _ _ => value_of_merge?_eq_some, ?_, join?_comm,
    join?_assoc, join?_self, some_empty_join?, fun _ => rfl, ?_⟩
  · intro a b
    rw [merge?_eq_foldlM, foldlM_insert?_eq_insertEach]
  · intro b
    exact ⟨ascending_literals b, fun l => negate_not_mem_literals⟩

end Branch

end Subsumption
