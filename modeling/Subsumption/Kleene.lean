/-!
Strong Kleene connectives.

A truth value is `some true`, `some false`, or `none` when it is not decided.
Each connective is decided as soon as the decided operands force its value,
except for the biconditional, which waits for both sides.
-/

namespace Subsumption

/-- A truth value that may be undecided. -/
abbrev Truth := Option Bool

namespace Truth

/-- Negation leaves an undecided value undecided. -/
def not (a : Truth) : Truth := a.map (!·)

/-- Conjunction: one false side decides it. -/
def and : Truth → Truth → Truth
  | some false, _ => some false
  | _, some false => some false
  | some true, some true => some true
  | _, _ => none

/-- Disjunction: one true side decides it. -/
def or : Truth → Truth → Truth
  | some true, _ => some true
  | _, some true => some true
  | some false, some false => some false
  | _, _ => none

/-- Implication: a false premise or a true conclusion decides it. -/
def imp : Truth → Truth → Truth
  | some false, _ => some true
  | _, some true => some true
  | some true, some false => some false
  | _, _ => none

/-- The biconditional compares two decided sides. -/
def iff : Truth → Truth → Truth
  | some a, some b => some (a == b)
  | _, _ => none

/-- The conjunction of a list; the empty one is true. -/
def all (values : List Truth) : Truth := values.foldr and (some true)

/-- The disjunction of a list; the empty one is false. -/
def any (values : List Truth) : Truth := values.foldr or (some false)

@[simp] theorem all_nil : all [] = some true := rfl

@[simp] theorem all_cons (a : Truth) (values : List Truth) :
    all (a :: values) = and a (all values) := rfl

@[simp] theorem any_nil : any [] = some false := rfl

@[simp] theorem any_cons (a : Truth) (values : List Truth) :
    any (a :: values) = or a (any values) := rfl

@[simp] theorem not_not (a : Truth) : a.not.not = a := by
  rcases a with _ | _ | _ <;> rfl

@[simp] theorem and_some_true (a : Truth) : and a (some true) = a := by
  rcases a with _ | _ | _ <;> rfl

@[simp] theorem some_true_and (a : Truth) : and (some true) a = a := by
  rcases a with _ | _ | _ <;> rfl

@[simp] theorem and_some_false (a : Truth) : and a (some false) = some false := by
  rcases a with _ | _ | _ <;> rfl

@[simp] theorem some_false_and (a : Truth) : and (some false) a = some false := by
  rcases a with _ | _ | _ <;> rfl

@[simp] theorem or_some_false (a : Truth) : or a (some false) = a := by
  rcases a with _ | _ | _ <;> rfl

@[simp] theorem some_false_or (a : Truth) : or (some false) a = a := by
  rcases a with _ | _ | _ <;> rfl

@[simp] theorem or_some_true (a : Truth) : or a (some true) = some true := by
  rcases a with _ | _ | _ <;> rfl

@[simp] theorem some_true_or (a : Truth) : or (some true) a = some true := by
  rcases a with _ | _ | _ <;> rfl

theorem and_none {a : Truth} (h : a ≠ some false) : and a none = none := by
  rcases a with _ | _ | _ <;> simp_all [and]

theorem or_none {a : Truth} (h : a ≠ some true) : or a none = none := by
  rcases a with _ | _ | _ <;> simp_all [or]

theorem and_assoc (a b c : Truth) : and (and a b) c = and a (and b c) := by
  rcases a with _ | _ | _ <;> rcases b with _ | _ | _ <;> rcases c with _ | _ | _ <;> rfl

theorem or_assoc (a b c : Truth) : or (or a b) c = or a (or b c) := by
  rcases a with _ | _ | _ <;> rcases b with _ | _ | _ <;> rcases c with _ | _ | _ <;> rfl

theorem and_or_distrib_left (a b c : Truth) : and a (or b c) = or (and a b) (and a c) := by
  rcases a with _ | _ | _ <;> rcases b with _ | _ | _ <;> rcases c with _ | _ | _ <;> rfl

theorem and_or_distrib_right (a b c : Truth) : and (or a b) c = or (and a c) (and b c) := by
  rcases a with _ | _ | _ <;> rcases b with _ | _ | _ <;> rcases c with _ | _ | _ <;> rfl

theorem not_and (a b : Truth) : (and a b).not = or a.not b.not := by
  rcases a with _ | _ | _ <;> rcases b with _ | _ | _ <;> rfl

theorem not_or (a b : Truth) : (or a b).not = and a.not b.not := by
  rcases a with _ | _ | _ <;> rcases b with _ | _ | _ <;> rfl

theorem imp_eq_or (a b : Truth) : imp a b = or a.not b := by
  rcases a with _ | _ | _ <;> rcases b with _ | _ | _ <;> rfl

/-- Both sides true or both sides false. -/
theorem iff_eq_or (a b : Truth) : iff a b = or (and a b) (and a.not b.not) := by
  rcases a with _ | _ | _ <;> rcases b with _ | _ | _ <;> rfl

theorem not_iff (a b : Truth) : (iff a b).not = iff a b.not := by
  rcases a with _ | _ | _ <;> rcases b with _ | _ | _ <;> rfl

theorem all_append (left right : List Truth) :
    all (left ++ right) = and (all left) (all right) := by
  induction left with
  | nil => rw [List.nil_append, all_nil, some_true_and]
  | cons a left ih => rw [List.cons_append, all_cons, all_cons, ih, and_assoc]

theorem any_append (left right : List Truth) :
    any (left ++ right) = or (any left) (any right) := by
  induction left with
  | nil => rw [List.nil_append, any_nil, some_false_or]
  | cons a left ih => rw [List.cons_append, any_cons, any_cons, ih, or_assoc]

theorem not_all (values : List Truth) : (all values).not = any (values.map not) := by
  induction values with
  | nil => rfl
  | cons a values ih => rw [all_cons, not_and, ih, List.map_cons, any_cons]

theorem not_any (values : List Truth) : (any values).not = all (values.map not) := by
  induction values with
  | nil => rfl
  | cons a values ih => rw [any_cons, not_or, ih, List.map_cons, all_cons]

theorem any_map_and {α : Type} (a : Truth) (f : α → Truth) (items : List α) :
    any (items.map fun x => and a (f x)) = and a (any (items.map f)) := by
  induction items with
  | nil => rw [List.map_nil, List.map_nil, any_nil, and_some_false]
  | cons x items ih =>
    rw [List.map_cons, List.map_cons, any_cons, any_cons, ih, and_or_distrib_left]

theorem any_flatMap {α : Type} (f : α → List Truth) (items : List α) :
    any (items.flatMap f) = any (items.map fun x => any (f x)) := by
  induction items with
  | nil => rfl
  | cons x items ih => rw [List.flatMap_cons, any_append, ih, List.map_cons, any_cons]

theorem and_eq_some_true {a b : Truth} :
    and a b = some true ↔ a = some true ∧ b = some true := by
  rcases a with _ | _ | _ <;> rcases b with _ | _ | _ <;> simp [and]

theorem and_eq_some_false {a b : Truth} :
    and a b = some false ↔ a = some false ∨ b = some false := by
  rcases a with _ | _ | _ <;> rcases b with _ | _ | _ <;> simp [and]

theorem or_eq_some_true {a b : Truth} :
    or a b = some true ↔ a = some true ∨ b = some true := by
  rcases a with _ | _ | _ <;> rcases b with _ | _ | _ <;> simp [or]

theorem or_eq_some_false {a b : Truth} :
    or a b = some false ↔ a = some false ∧ b = some false := by
  rcases a with _ | _ | _ <;> rcases b with _ | _ | _ <;> simp [or]

theorem not_eq_some {a : Truth} {s : Bool} : not a = some s ↔ a = some !s := by
  rcases a with _ | _ | _ <;> cases s <;> simp [not]

theorem imp_eq_some_true {a b : Truth} :
    imp a b = some true ↔ a = some false ∨ b = some true := by
  rcases a with _ | _ | _ <;> rcases b with _ | _ | _ <;> simp [imp]

theorem imp_eq_some_false {a b : Truth} :
    imp a b = some false ↔ a = some true ∧ b = some false := by
  rcases a with _ | _ | _ <;> rcases b with _ | _ | _ <;> simp [imp]

/-- A decided biconditional has both sides decided, alike or apart. -/
theorem iff_eq_some {a b : Truth} {s : Bool} :
    iff a b = some s ↔ (a = some true ∧ b = some s) ∨ (a = some false ∧ b = some !s) := by
  rcases a with _ | _ | _ <;> rcases b with _ | _ | _ <;> cases s <;> simp [iff]

theorem all_eq_some_true {values : List Truth} :
    all values = some true ↔ ∀ a ∈ values, a = some true := by
  induction values with
  | nil => simp
  | cons a values ih => simp [and_eq_some_true, ih]

theorem all_eq_some_false {values : List Truth} :
    all values = some false ↔ some false ∈ values := by
  induction values with
  | nil => simp
  | cons a values ih => rw [all_cons, and_eq_some_false, ih, List.mem_cons, eq_comm]

theorem any_eq_some_true {values : List Truth} :
    any values = some true ↔ some true ∈ values := by
  induction values with
  | nil => simp
  | cons a values ih => rw [any_cons, or_eq_some_true, ih, List.mem_cons, eq_comm]

theorem any_eq_some_false {values : List Truth} :
    any values = some false ↔ ∀ a ∈ values, a = some false := by
  induction values with
  | nil => simp
  | cons a values ih => simp [or_eq_some_false, ih]

theorem isSome_not (a : Truth) : a.not.isSome = a.isSome := Option.isSome_map

theorem isSome_and {a b : Truth} (ha : a.isSome) (hb : b.isSome) : (and a b).isSome := by
  rcases a with _ | _ | _ <;> rcases b with _ | _ | _ <;> simp_all [and]

end Truth

end Subsumption
