import Std.Data.ExtTreeMap
import Subsumption.Valuation
/-!
Open branches of an analytic tableau: signs for finitely many atoms, never both for
one.  An insertion or a merge that would close the branch has no result.
-/

namespace Subsumption

/-- The literals of an open branch, as the sign of each atom on it. -/
structure Branch where
  signs : Std.ExtTreeMap Atom Bool
deriving DecidableEq

namespace Branch

instance : EmptyCollection Branch := ⟨⟨∅⟩⟩

def value (b : Branch) : Valuation := Valuation.ofMap b.signs

/-- The literals on the branch, in order of atom. -/
def literals (b : Branch) : List Literal := b.signs.toList.map fun entry => ⟨entry.1, entry.2⟩

def size (b : Branch) : Nat := b.signs.size

def singleton (l : Literal) : Branch := ⟨(∅ : Std.ExtTreeMap Atom Bool).insert l.atom l.sign⟩

/-- The branch with one more literal, unless the opposite literal is on it. -/
def insert? (b : Branch) (l : Literal) : Option Branch :=
  if b.value l.atom = some !l.sign then none else some ⟨b.signs.insert l.atom l.sign⟩

/-- Inserts literals in turn, dropping each that would close the branch. -/
def ofLiterals (literals : List Literal) : Branch :=
  literals.foldl (fun b l => (b.insert? l).getD b) ∅

/-- The branch with the literals of both, unless some atom has opposite signs
on them.  The literals of the smaller branch are inserted into the larger. -/
def merge? (a b : Branch) : Option Branch :=
  if a.size < b.size then a.literals.foldlM insert? b else b.literals.foldlM insert? a

/-- The open merges of a branch of `left` with a branch of `right`, those of
the first branch of `left` first. -/
def product (left right : List Branch) : List Branch :=
  left.flatMap fun a => right.filterMap a.merge?

/-- Extends the branches of `found` by each further list of branches.  Once
every branch has closed the rest is not asked for. -/
def conjoinFrom (found : List Branch) : List (Thunk (List Branch)) → List Branch
  | [] => found
  | next :: rest => if found.isEmpty then [] else conjoinFrom (product found next.get) rest

/-- The open merges of one branch from each list, in lexicographic order. -/
def conjoin : List (Thunk (List Branch)) → List Branch := conjoinFrom [∅]

/-- Branches are compared as their lists of literals. -/
instance : Ord Branch := ⟨fun a b => compare a.literals b.literals⟩

def text (b : Branch) : String :=
  "\x7b" ++ ", ".intercalate (b.literals.map Literal.text) ++ "\x7d"

def debugText (b : Branch) : String :=
  let entries := b.literals.map fun l => l.atom.name ++ ": " ++ Literal.signText l.sign
  "Branch \x7b assignments: \x7b" ++ ", ".intercalate entries ++ "\x7d \x7d"

@[ext] theorem ext {a b : Branch} (h : ∀ p, a.value p = b.value p) : a = b := by
  cases a; cases b
  congr 1
  exact Std.ExtTreeMap.ext_getElem? h

@[simp] theorem value_empty (p : Atom) : (∅ : Branch).value p = none :=
  Std.ExtTreeMap.getElem?_empty

theorem value_singleton (l : Literal) (p : Atom) :
    (singleton l).value p = if l.atom = p then some l.sign else none := by
  simp [singleton, value, Valuation.ofMap, Std.ExtTreeMap.getElem?_insert]

theorem insert?_eq_none_iff {b : Branch} {l : Literal} :
    b.insert? l = none ↔ b.value l.atom = some !l.sign := by
  simp [insert?]

/-- An insertion that succeeds sets the sign of one atom. -/
theorem value_of_insert?_eq_some {b c : Branch} {l : Literal} (h : b.insert? l = some c)
    (p : Atom) : c.value p = if l.atom = p then some l.sign else b.value p := by
  unfold insert? at h
  split at h
  · cases h
  · cases h
    simp [value, Valuation.ofMap, Std.ExtTreeMap.getElem?_insert]

/-- The literals of a branch are those that it satisfies as a valuation. -/
theorem mem_literals {b : Branch} {l : Literal} : l ∈ b.literals ↔ b.value.Satisfies l := by
  cases l with
  | mk atom sign => simp [literals, Valuation.Satisfies, value, Valuation.ofMap]

@[simp] theorem product_nil_left (right : List Branch) : product [] right = [] := rfl

/-- Leaving the loop once every branch has closed gives what the whole fold
gives. -/
theorem conjoinFrom_eq_foldl (found : List Branch) (lists : List (Thunk (List Branch))) :
    conjoinFrom found lists = lists.foldl (fun found next => product found next.get) found := by
  induction lists generalizing found with
  | nil => rfl
  | cons next rest ih =>
    rw [conjoinFrom, List.foldl_cons]
    split
    · next hclosed =>
      rw [List.isEmpty_iff.1 hclosed, product_nil_left, ← ih]
      cases rest <;> rfl
    · exact ih (product found next.get)

end Branch

example : (Branch.singleton ⟨⟨"p"⟩, true⟩).merge? (Branch.singleton ⟨⟨"p"⟩, false⟩) = none := by
  decide

example : (Branch.ofLiterals [⟨⟨"q"⟩, true⟩, ⟨⟨"p"⟩, true⟩, ⟨⟨"q"⟩, false⟩]).literals =
    [⟨⟨"p"⟩, true⟩, ⟨⟨"q"⟩, true⟩] := by
  decide

end Subsumption
