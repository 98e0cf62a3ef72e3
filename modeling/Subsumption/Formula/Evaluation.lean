import Subsumption.Formula.Basic
import Subsumption.Valuation
/-!
The truth value of a formula under a partial valuation.  Operands are evaluated in
turn, and those after a deciding one not at all, which comes to the strong Kleene
connectives.
-/

namespace Subsumption.Formula

mutual

/-- The value of the formula, undecided where it depends on an atom without a
value. -/
def eval (v : Valuation) : Formula → Truth
  | atom a => v a
  | neg f => (f.eval v).not
  | conj fs => evalOperands v false (some true) fs
  | disj fs => evalOperands v true (some false) fs
  | imp f g => (f.eval v).imp (g.eval v)
  | iff f g => (f.eval v).iff (g.eval v)

/-- Goes through operands until one of them has the `deciding` value.  An
undecided operand leaves the whole undecided unless a later one decides it. -/
def evalOperands (v : Valuation) (deciding : Bool) (value : Truth) : List Formula → Truth
  | [] => value
  | f :: fs =>
    match f.eval v with
    | some sign => if sign = deciding then some sign else evalOperands v deciding value fs
    | none => evalOperands v deciding none fs

end

/-- Leaving the loop at a deciding operand gives what the connective gives. -/
theorem evalOperands_eq (v : Valuation) {deciding : Bool} {value : Truth} (fs : List Formula)
    (hopen : value ≠ some deciding) : evalOperands v deciding value fs =
      if deciding then value.or (Truth.any (fs.map (eval v)))
      else value.and (Truth.all (fs.map (eval v))) := by
  induction fs generalizing value with
  | nil => cases deciding <;> simp [evalOperands]
  | cons f fs ih =>
    rw [evalOperands, List.map_cons, Truth.any_cons, Truth.all_cons]
    cases f.eval v with
    | none =>
      -- An undecided operand outweighs those before it, as none of them decides.
      change evalOperands v deciding none fs = _
      rw [ih (by simp)]
      cases deciding with
      | false => simp only [← Truth.and_assoc, Truth.and_none hopen, Bool.false_eq_true, if_false]
      | true => simp only [← Truth.or_assoc, Truth.or_none hopen, if_true]
    | some sign =>
      change (if sign = deciding then some sign else evalOperands v deciding value fs) = _
      rw [ih hopen]
      cases sign <;> cases deciding <;> simp

@[simp] theorem eval_atom (v : Valuation) (a : Atom) : (atom a).eval v = v a := by
  rw [eval]

@[simp] theorem eval_neg (v : Valuation) (f : Formula) : (neg f).eval v = (f.eval v).not := by
  rw [eval]

@[simp] theorem eval_conj (v : Valuation) (fs : List Formula) :
    (conj fs).eval v = Truth.all (fs.map (eval v)) := by
  rw [eval, evalOperands_eq v fs (by decide), if_neg (by decide), Truth.some_true_and]

example : (conj [atom ⟨"q"⟩, atom ⟨"p"⟩]).eval (.ofLiterals [⟨⟨"p"⟩, false⟩]) = some false := by
  decide

@[simp] theorem eval_disj (v : Valuation) (fs : List Formula) :
    (disj fs).eval v = Truth.any (fs.map (eval v)) := by
  rw [eval, evalOperands_eq v fs (by decide), if_pos rfl, Truth.some_false_or]

@[simp] theorem eval_imp (v : Valuation) (f g : Formula) :
    (imp f g).eval v = (f.eval v).imp (g.eval v) := by
  rw [eval]

@[simp] theorem eval_iff (v : Valuation) (f g : Formula) :
    (iff f g).eval v = (f.eval v).iff (g.eval v) := by
  rw [eval]

theorem eval_conj_pair (v : Valuation) (f g : Formula) :
    (conj [f, g]).eval v = (f.eval v).and (g.eval v) := by
  rw [eval_conj, List.map_cons, List.map_cons, List.map_nil, Truth.all_cons, Truth.all_cons,
    Truth.all_nil, Truth.and_some_true]

/-- A literal is true exactly under the valuations that satisfy it. -/
theorem eval_ofLiteral_eq_some_true {v : Valuation} {l : Literal} :
    (ofLiteral l).eval v = some true ↔ v.Satisfies l := by
  obtain ⟨a, _ | _⟩ := l <;> simp [ofLiteral, Valuation.Satisfies, Truth.not]

theorem eval_ofLiteral_eq_some_false {v : Valuation} {l : Literal} :
    (ofLiteral l).eval v = some false ↔ v l.atom = some !l.sign := by
  obtain ⟨a, _ | _⟩ := l <;> simp [ofLiteral, Truth.not]

end Subsumption.Formula
