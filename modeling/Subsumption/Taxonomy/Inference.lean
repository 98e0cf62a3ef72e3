import Subsumption.Formula.Basic
import Subsumption.Taxonomy.Reachability
/-!
A taxonomy as a formula, and inference with a taxonomy.  A true element makes its
ancestors true and a false one its descendants false; conjuncts of any other shape are
passed over.
-/

namespace Subsumption.Taxonomy

/-- The conjunction of the edges, each as an implication from child to parent,
in order of child and then of parent. -/
def constraints (t : Taxonomy) : Formula :=
  .conj (t.elements.toList.flatMap fun (child, e) =>
    e.parents.toList.map fun parent => .imp (.atom child) (.atom parent))

/-- What a literal forces: the ancestors of a true atom and the descendants of
a false one, with the sign of the literal. -/
def forced (t : Taxonomy) (l : Literal) : List Literal :=
  let atoms := if l.sign then t.ancestors l.atom else t.descendants l.atom
  match atoms with
  | .ok atoms => atoms.toList.map fun a => ⟨a, l.sign⟩
  | .error _ => []

/-- The literals that the literals among some conjuncts force, in order and
each once. -/
def inferred (t : Taxonomy) (conjuncts : List Formula) : Std.ExtTreeSet Literal :=
  .ofList ((conjuncts.filterMap Formula.literal?).flatMap t.forced)

/-- Joins a conjunction with the conjunction of the literals inferred from it.
A formula of another shape, or one that nothing is inferred from, is left as
it is. -/
def inferFrom (t : Taxonomy) : Formula → Formula
  | .conj conjuncts =>
    let literals := t.inferred conjuncts
    if literals.isEmpty then .conj conjuncts
    else .conj [.conj conjuncts, .conj (literals.toList.map .ofLiteral)]
  | f => f

end Subsumption.Taxonomy
