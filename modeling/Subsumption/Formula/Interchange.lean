import Subsumption.Formula.Basic
import Subsumption.Json.Reading
/-!
Formulas as JSON.

A formula is an object with one member, whose key names the connective and
whose value holds the operands.  Nothing else is read as a formula.
-/

namespace Subsumption

/-- An atom is written as its name. -/
def Atom.toJson (a : Atom) : Json := .ofString a.name

def Atom.ofJson? (json : Json) : Option Atom := json.text?.map Atom.mk

namespace Formula

def toJson : Formula → Json
  | atom a => .ofMembers [("Atom", a.toJson)]
  | neg f => .ofMembers [("Not", f.toJson)]
  | conj fs => .ofMembers [("And", .array (fs.map toJson))]
  | disj fs => .ofMembers [("Or", .array (fs.map toJson))]
  | imp f g => .ofMembers [("Implies", .array [f.toJson, g.toJson])]
  | iff f g => .ofMembers [("Equiv", .array [f.toJson, g.toJson])]

def ofJson? : Json → Option Formula
  | .object [(some "Atom", a)] => (Atom.ofJson? a).map atom
  | .object [(some "Not", f)] => (ofJson? f).map neg
  | .object [(some "And", .array fs)] => (fs.mapM ofJson?).map conj
  | .object [(some "Or", .array fs)] => (fs.mapM ofJson?).map disj
  | .object [(some "Implies", .array [f, g])] => do return imp (← ofJson? f) (← ofJson? g)
  | .object [(some "Equiv", .array [f, g])] => do return iff (← ofJson? f) (← ofJson? g)
  | _ => none

def read? (text : String) : Option Formula := Json.read? text >>= ofJson?

end Formula

end Subsumption
