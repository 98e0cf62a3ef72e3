import Subsumption.Formula.Basic
/-!
The written forms of a formula.

In `Formula.text` a conjunction or disjunction of two or more operands stands
in parentheses, one with a single operand is written as that operand, and the
empty ones are written `true` and `false`.
-/

namespace Subsumption.Formula

/-- Operands between `separator`s and in parentheses, where a lone operand
stands for itself and no operand is written as `empty`. -/
def joined (empty separator : String) : List String → String
  | [] => empty
  | [operand] => operand
  | operands => "(" ++ separator.intercalate operands ++ ")"

/-- The formula in infix form. -/
def text : Formula → String
  | atom a => a.name
  | neg f => "-" ++ f.text
  | conj fs => joined "true" " & " (fs.map text)
  | disj fs => joined "false" " | " (fs.map text)
  | imp f g => "(" ++ f.text ++ " -> " ++ g.text ++ ")"
  | iff f g => "(" ++ f.text ++ " <-> " ++ g.text ++ ")"

/-- The formula with each connective named. -/
def debugText : Formula → String
  | atom a => "Atom(" ++ a.name ++ ")"
  | neg f => "Not(" ++ f.debugText ++ ")"
  | conj fs => "And([" ++ ", ".intercalate (fs.map debugText) ++ "])"
  | disj fs => "Or([" ++ ", ".intercalate (fs.map debugText) ++ "])"
  | imp f g => "Implies(" ++ f.debugText ++ ", " ++ g.debugText ++ ")"
  | iff f g => "Equiv(" ++ f.debugText ++ ", " ++ g.debugText ++ ")"

example : (conj [atom ⟨"p"⟩, neg (disj [])]).text = "(p & -false)" := by
  simp [text, joined]

end Subsumption.Formula
