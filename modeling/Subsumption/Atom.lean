/-!
Atoms and literals.  Names are ordered by code point, so the order of two atoms does
not depend on how a name is encoded; literals are ordered by atom and then by sign,
negative before positive.
-/

namespace Subsumption

/-- The list in ascending order, with repetitions kept. -/
def ascending {α : Type} [Ord α] (l : List α) : List α :=
  l.mergeSort fun a b => (compare a b).isLE

/-- A propositional atom, which is also the name of an element of a taxonomy. -/
structure Atom where
  name : String
deriving DecidableEq, Repr

namespace Atom

instance : Ord Atom := ⟨compareOn Atom.name⟩

instance : Std.TransOrd Atom :=
  inferInstanceAs (Std.TransCmp (compareOn Atom.name))

instance : Std.LawfulEqOrd Atom where
  eq_of_compare {a b} h := by
    have hname : a.name = b.name := Std.LawfulEqOrd.eq_of_compare h
    cases a; cases b; simpa using hname

instance : LT Atom := ⟨fun a b => a.name < b.name⟩

theorem compare_eq_lt {a b : Atom} : compare a b = .lt ↔ a < b := compareOfLessAndEq_eq_lt

end Atom

/-- An atom together with a sign: the atom itself, or its negation. -/
structure Literal where
  atom : Atom
  sign : Bool
deriving DecidableEq, Repr

namespace Literal

instance : Ord Literal := ⟨compareLex (compareOn Literal.atom) (compareOn Literal.sign)⟩

instance : Std.TransOrd Literal :=
  inferInstanceAs (Std.TransCmp (compareLex (compareOn Literal.atom) (compareOn Literal.sign)))

/-- Literals are compared by atom, and by sign when the atoms agree. -/
theorem compare_eq (l m : Literal) :
    compare l m = (compare l.atom m.atom).then (compare l.sign m.sign) := rfl

instance : Std.LawfulEqOrd Literal where
  eq_of_compare {l m} h := by
    rw [compare_eq, Ordering.then_eq_eq] at h
    have hatom : l.atom = m.atom := Std.LawfulEqOrd.eq_of_compare h.1
    have hsign : l.sign = m.sign := Std.LawfulEqOrd.eq_of_compare h.2
    cases l; cases m; simp_all

instance : LT Literal := ⟨fun l m => l.atom < m.atom ∨ l.atom = m.atom ∧ l.sign < m.sign⟩

theorem compare_eq_lt {l m : Literal} : compare l m = .lt ↔ l < m := by
  have hsign : ∀ s s' : Bool, compare s s' = .lt ↔ s < s' := by decide
  rw [compare_eq, Ordering.then_eq_lt, Atom.compare_eq_lt, Std.LawfulEqOrd.compare_eq_iff_eq,
    hsign]
  exact Iff.rfl

theorem lt_asymm {l m : Literal} (h : l < m) : ¬ m < l := by
  rw [← compare_eq_lt] at h ⊢
  exact Std.OrientedCmp.not_lt_of_lt h

/-- The literal on the same atom with the other sign. -/
def negate (l : Literal) : Literal := { l with sign := !l.sign }

/-- A negative literal is written with a minus sign before the name. -/
def text (l : Literal) : String :=
  if l.sign then l.atom.name else "-" ++ l.atom.name

def signText (sign : Bool) : String :=
  if sign then "true" else "false"

/-- The literal with its parts named. -/
def debugText (l : Literal) : String :=
  "ABLiteral \x7b atom: " ++ l.atom.name ++ ", polarity: " ++ signText l.sign ++ " \x7d"

end Literal

def Atom.literal (a : Atom) : Literal := ⟨a, true⟩

example : compare (Literal.mk ⟨"p"⟩ true) ⟨⟨"q"⟩, false⟩ = .lt := by decide

example : compare (Literal.mk ⟨"p"⟩ true) ⟨⟨"p"⟩, false⟩ = .gt := by decide

end Subsumption
