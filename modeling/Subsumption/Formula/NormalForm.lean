import Subsumption.Formula.Basic
/-!
Disjunctive normal form in one pass from the root, which asks for the normal form
of the negation below a negation.  Conjunctions distribute in lexicographic order
and nothing is simplified: a term may hold a literal twice, or with both signs.
-/

namespace Subsumption

namespace Dnf

variable {α : Type}

/-- Appends each term of `right` to each term of `left`, those that begin with
the first term of `left` first. -/
def product (left right : List (List α)) : List (List α) :=
  left.flatMap fun s => right.map fun t => s ++ t

/-- Extends the terms of `found` by each further normal form.  Once no term is
left the rest is not asked for. -/
def conjoinFrom (found : List (List α)) : List (Thunk (List (List α))) → List (List α)
  | [] => found
  | next :: rest => if found.isEmpty then [] else conjoinFrom (product found next.get) rest

/-- The terms of a conjunction, by distribution in lexicographic order. -/
def conjoin : List (Thunk (List (List α))) → List (List α) := conjoinFrom [[]]

@[simp] theorem product_nil_left (right : List (List α)) : product [] right = [] := rfl

/-- Leaving the loop once no term is left gives what the whole fold gives. -/
theorem conjoinFrom_eq_foldl (found : List (List α)) (dnfs : List (Thunk (List (List α)))) :
    conjoinFrom found dnfs = dnfs.foldl (fun found next => product found next.get) found := by
  induction dnfs generalizing found with
  | nil => rfl
  | cons next rest ih =>
    rw [conjoinFrom, List.foldl_cons]
    split
    · next hempty =>
      rw [List.isEmpty_iff.1 hempty, product_nil_left, ← ih]
      cases rest <;> rfl
    · exact ih (product found next.get)

theorem conjoin_pair (left right : List (List α)) :
    conjoin [left, right] = product left right := by
  have hfirst : product [[]] left = left := by
    simp [product]
  rw [conjoin, conjoinFrom_eq_foldl]
  change product (product [[]] left) right = product left right
  rw [hfirst]

end Dnf

namespace Formula

/-- The operands of a disjunction.  Any other formula is its only disjunct. -/
def disjuncts : Formula → List Formula
  | disj fs => fs
  | f => [f]

/-- The operands of a conjunction.  Any other formula is its only conjunct. -/
def conjuncts : Formula → List Formula
  | conj fs => fs
  | f => [f]

/-- A formula cut at its disjunction and then at the conjunctions below, whatever
the pieces are.  For a formula in disjunctive normal form they are the literals of
its terms. -/
def cut (f : Formula) : List (List Formula) := f.disjuncts.map conjuncts

/-- Operands joined by a connective, which a lone operand goes without. -/
def wrap (connective : List Formula → Formula) : List Formula → Formula
  | [f] => f
  | fs => connective fs

theorem wrap_of_length_ne_one {connective : List Formula → Formula} {fs : List Formula}
    (h : fs.length ≠ 1) : wrap connective fs = connective fs := by
  match fs with
  | [] => rfl
  | [f] => exact absurd rfl h
  | f :: g :: rest => rfl

/-- The disjunction of the conjunctions of some lists of formulas. -/
def pack (terms : List (List Formula)) : Formula := wrap disj (terms.map (wrap conj))

/-- The formula is a literal or a conjunction of literals. -/
def isTerm : Formula → Bool
  | conj fs => fs.all fun f => f.literal?.isSome
  | f => f.literal?.isSome

/-- The formula is a term or a disjunction of terms. -/
def isDnf : Formula → Bool
  | disj fs => fs.all isTerm
  | f => isTerm f

/-- A formula in disjunctive normal form with the meaning of the formula when
`sign` is true, and of its negation when `sign` is false. -/
def dnf (sign : Bool) : Formula → Formula
  | atom a => ofLiteral ⟨a, sign⟩
  | neg f => f.dnf !sign
  | conj fs =>
    pack <|
      if sign then Dnf.conjoin (fs.map fun f => Thunk.mk fun _ => (f.dnf true).cut)
      else fs.flatMap fun f => (f.dnf false).cut
  | disj fs =>
    pack <|
      if sign then fs.flatMap fun f => (f.dnf true).cut
      else Dnf.conjoin (fs.map fun f => Thunk.mk fun _ => (f.dnf false).cut)
  | imp f g =>
    pack <|
      if sign then (f.dnf false).cut ++ (g.dnf true).cut
      else Dnf.conjoin [(f.dnf true).cut, (g.dnf false).cut]
  | iff f g =>
    pack <|
      Dnf.conjoin [(f.dnf true).cut, (g.dnf sign).cut] ++
        Dnf.conjoin [(f.dnf false).cut, (g.dnf !sign).cut]
termination_by f => sizeOf f
decreasing_by
  all_goals simp only [neg.sizeOf_spec, conj.sizeOf_spec, disj.sizeOf_spec, imp.sizeOf_spec,
    iff.sizeOf_spec]
  all_goals try have := List.sizeOf_lt_of_mem ‹_›
  all_goals omega

def toDnf (f : Formula) : Formula := f.dnf true

def negatedDnf (f : Formula) : Formula := f.dnf false

example : (conj [disj [], atom ⟨"p"⟩]).toDnf = disj [] := by
  simp [toDnf, dnf, Dnf.conjoin, Dnf.conjoinFrom, Dnf.product, pack, wrap, cut, disjuncts,
    Thunk.get]

end Formula

end Subsumption
