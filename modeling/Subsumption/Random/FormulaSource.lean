import Subsumption.Formula.Basic
import Subsumption.Random.Draw
/-!
Random formulas of bounded depth and width.
-/

namespace Subsumption

/-- What random formulas are made of, and how large they may be. -/
structure FormulaSource where
  /-- The atoms that may occur. -/
  atoms : List Atom
  /-- How deep connectives may be nested. -/
  maxDepth : Nat
  /-- How many operands a conjunction or disjunction may have. -/
  maxWidth : Nat := 3

namespace FormulaSource

/-- Draws an atom.  With no atoms to choose from nothing is drawn, and the
formula is the empty conjunction. -/
def atom (s : FormulaSource) : Draw Formula := do
  if s.atoms.isEmpty then return .conj []
  let index ← Draw.below s.atoms.length
  let a ← s.atoms[index]?
  return .atom a

def literal (s : FormulaSource) : Draw Formula := do
  let f ← s.atom
  return if ← Draw.sign then f else .neg f

/-- Draws a formula with at most `depth` nested connectives. -/
def ofDepth (s : FormulaSource) : Nat → Draw Formula
  | 0 => s.atom
  | depth + 1 => do
    let operands : Draw (List Formula) := do
      let width ← Draw.below (s.maxWidth + 1)
      (List.range width).mapM fun _ => s.ofDepth depth
    match ← Draw.below 7 with
    | 0 => s.atom
    | 1 => return .neg (← s.ofDepth depth)
    | 2 => return .conj (← operands)
    | 3 => return .conj (← operands)
    | 4 => return .disj (← operands)
    | 5 => return .imp (← s.ofDepth depth) (← s.ofDepth depth)
    | _ => return .iff (← s.ofDepth depth) (← s.ofDepth depth)

def formula (s : FormulaSource) : Draw Formula := s.ofDepth s.maxDepth

end FormulaSource

end Subsumption
