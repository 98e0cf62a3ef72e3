import Std.Data.ExtTreeMap
import Subsumption.Atom
import Subsumption.Kleene
/-!
Partial valuations of atoms.
-/

namespace Subsumption

/-- A partial valuation: the truth value given to each atom. -/
abbrev Valuation := Atom → Truth

namespace Valuation

/-- The valuation that a table of signs gives. -/
def ofMap (signs : Std.ExtTreeMap Atom Bool) : Valuation := fun a => signs[a]?

/-- The valuation that gives each atom the sign of the last literal on it. -/
def ofLiterals (literals : List Literal) : Valuation :=
  ofMap (literals.foldl (fun signs l => signs.insert l.atom l.sign) ∅)

/-- The valuation gives the atom of the literal the sign of the literal. -/
def Satisfies (v : Valuation) (l : Literal) : Prop := v l.atom = some l.sign

instance (v : Valuation) (l : Literal) : Decidable (v.Satisfies l) :=
  inferInstanceAs (Decidable (v l.atom = some l.sign))

def Total (v : Valuation) : Prop := ∀ a, (v a).isSome

/-- Every value that `v` gives is also given by `w`. -/
def Extends (w v : Valuation) : Prop := ∀ a s, v a = some s → w a = some s

/-- A total valuation gives every atom one sign or the other. -/
theorem Total.eq_or {v : Valuation} (hv : v.Total) (a : Atom) (sign : Bool) :
    v a = some sign ∨ v a = some (!sign) := by
  obtain ⟨s, hs⟩ := Option.isSome_iff_exists.1 (hv a)
  rw [hs]
  cases s <;> cases sign <;> simp

end Valuation

example : Valuation.ofLiterals [⟨⟨"p"⟩, true⟩, ⟨⟨"p"⟩, false⟩] ⟨"p"⟩ = some false := by decide

example : Valuation.ofLiterals [⟨⟨"p"⟩, true⟩] ⟨"q"⟩ = none := by decide

end Subsumption
