import Subsumption.Branch
import Subsumption.Formula.Basic
/-!
Analytic tableaux in one pass from the root, with a sign that is false below a
negation.  A merge that would close a branch is dropped at once, and a branch may be
listed twice.
-/

namespace Subsumption.Formula

/-- The open branches of a tableau for the formula when `sign` is true, and
for its negation when `sign` is false. -/
def tableau (sign : Bool) : Formula → List Branch
  | atom a => [Branch.singleton ⟨a, sign⟩]
  | neg f => f.tableau !sign
  | conj fs =>
    if sign then Branch.conjoin (fs.map fun f => Thunk.mk fun _ => f.tableau true)
    else fs.flatMap (tableau false)
  | disj fs =>
    if sign then fs.flatMap (tableau true)
    else Branch.conjoin (fs.map fun f => Thunk.mk fun _ => f.tableau false)
  | imp f g =>
    if sign then f.tableau false ++ g.tableau true
    else Branch.product (f.tableau true) (g.tableau false)
  | iff f g =>
    Branch.product (f.tableau true) (g.tableau sign) ++
      Branch.product (f.tableau false) (g.tableau !sign)
termination_by f => sizeOf f
decreasing_by
  all_goals simp only [neg.sizeOf_spec, conj.sizeOf_spec, disj.sizeOf_spec, imp.sizeOf_spec,
    iff.sizeOf_spec]
  all_goals try have := List.sizeOf_lt_of_mem ‹_›
  all_goals omega

def branches (f : Formula) : List Branch := f.tableau true

def negatedBranches (f : Formula) : List Branch := f.tableau false

end Subsumption.Formula
