import Subsumption.AtomSet
/-!
Propositional formulas.

Conjunctions and disjunctions hold any number of operands, none included.
Equality of formulas is structural and decidable.
-/

namespace Subsumption

inductive Formula where
  | atom (a : Atom)
  | neg (f : Formula)
  | conj (fs : List Formula)
  | disj (fs : List Formula)
  | imp (f g : Formula)
  | iff (f g : Formula)
deriving Repr

namespace Formula

instance : Inhabited Formula := ⟨conj []⟩

/-- Induction in which the operands of a conjunction or disjunction are
treated one by one. -/
@[induction_eliminator]
theorem induction {motive : Formula → Prop}
    (atom : ∀ a, motive (.atom a))
    (neg : ∀ f, motive f → motive (.neg f))
    (conj : ∀ fs, (∀ f ∈ fs, motive f) → motive (.conj fs))
    (disj : ∀ fs, (∀ f ∈ fs, motive f) → motive (.disj fs))
    (imp : ∀ f g, motive f → motive g → motive (.imp f g))
    (iff : ∀ f g, motive f → motive g → motive (.iff f g)) : ∀ f, motive f
  | .atom a => atom a
  | .neg f => neg f (induction atom neg conj disj imp iff f)
  | .conj fs => conj fs fun f _ => induction atom neg conj disj imp iff f
  | .disj fs => disj fs fun f _ => induction atom neg conj disj imp iff f
  | .imp f g => imp f g (induction atom neg conj disj imp iff f)
      (induction atom neg conj disj imp iff g)
  | .iff f g => iff f g (induction atom neg conj disj imp iff f)
      (induction atom neg conj disj imp iff g)

mutual

/-- Structural equality of formulas. -/
def same : Formula → Formula → Bool
  | .atom a, .atom b => a == b
  | .neg f, .neg g => same f g
  | .conj fs, .conj gs => sameAll fs gs
  | .disj fs, .disj gs => sameAll fs gs
  | .imp f g, .imp f' g' => same f f' && same g g'
  | .iff f g, .iff f' g' => same f f' && same g g'
  | _, _ => false

def sameAll : List Formula → List Formula → Bool
  | [], [] => true
  | f :: fs, g :: gs => same f g && sameAll fs gs
  | _, _ => false

end

theorem sameAll_iff {fs gs : List Formula} (h : ∀ f ∈ fs, ∀ g, same f g = true ↔ f = g) :
    sameAll fs gs = true ↔ fs = gs := by
  induction fs generalizing gs with
  | nil => cases gs <;> simp [sameAll]
  | cons f fs ih =>
    cases gs with
    | nil => simp [sameAll]
    | cons g gs =>
      have hrest : sameAll fs gs = true ↔ fs = gs :=
        ih fun f' hf' => h f' (List.mem_cons_of_mem f hf')
      simp [sameAll, h f List.mem_cons_self g, hrest]

theorem same_iff (f g : Formula) : same f g = true ↔ f = g := by
  induction f generalizing g with
  | atom a => cases g <;> simp [same]
  | neg f ih => cases g <;> simp [same, ih]
  | conj fs ih => cases g <;> simp [same, sameAll_iff ih]
  | disj fs ih => cases g <;> simp [same, sameAll_iff ih]
  | imp f f' ih ih' => cases g <;> simp [same, ih, ih']
  | iff f f' ih ih' => cases g <;> simp [same, ih, ih']

instance : DecidableEq Formula := fun f g => decidable_of_iff (same f g = true) (same_iff f g)

/-- The formula for a literal: the atom, or its negation. -/
def ofLiteral (l : Literal) : Formula :=
  if l.sign then atom l.atom else neg (atom l.atom)

/-- The literal that an atom or a negated atom stands for. -/
def literal? : Formula → Option Literal
  | atom a => some ⟨a, true⟩
  | neg (atom a) => some ⟨a, false⟩
  | _ => none

def isAtom : Formula → Bool
  | atom _ => true
  | _ => false

def children : Formula → List Formula
  | atom _ => []
  | neg f => [f]
  | conj fs => fs
  | disj fs => fs
  | imp f g => [f, g]
  | iff f g => [f, g]

/-- The formula and every formula inside it, each before its own parts. -/
def subformulas : Formula → List Formula
  | atom a => [atom a]
  | neg f => neg f :: f.subformulas
  | conj fs => conj fs :: fs.flatMap subformulas
  | disj fs => disj fs :: fs.flatMap subformulas
  | imp f g => imp f g :: (f.subformulas ++ g.subformulas)
  | iff f g => iff f g :: (f.subformulas ++ g.subformulas)

theorem subformulas_eq (f : Formula) :
    f.subformulas = f :: f.children.flatMap subformulas := by
  cases f <;> simp [subformulas, children]

/-- Examines the `pending` formulas, the first of them next.  An atom joins those
`found`, and any other formula gives way to its operands, the last of them first. -/
def atomsFrom (found : AtomSet) : List Formula → AtomSet
  | [] => found
  | atom a :: pending => atomsFrom (found.insert a) pending
  | f :: pending => atomsFrom found (f.children.reverse ++ pending)
termination_by pending => (pending.flatMap subformulas).length
decreasing_by
  -- What is examined is done with, and all that is inside it is still to come.
  · simp [subformulas]
  · simp [subformulas_eq f]

/-- The atoms at the leaves of the formula, found with a stack of pending formulas. -/
def atoms (f : Formula) : AtomSet := atomsFrom ∅ [f]

/-- Nothing is lost on the way to the leaves: what is found in the end is what was
found before and what is inside a pending formula. -/
theorem mem_atomsFrom {found : AtomSet} {pending : List Formula} {a : Atom} :
    a ∈ atomsFrom found pending ↔ a ∈ found ∨ ∃ f ∈ pending, atom a ∈ f.subformulas := by
  fun_induction atomsFrom found pending with
  | case1 found => simp
  | case2 found b pending ih =>
    rw [ih, AtomSet.mem_insert_iff]
    simp [subformulas, or_left_comm, or_assoc]
  | case3 found f pending hatom ih =>
    have hinside : atom a ∈ f.subformulas ↔ ∃ g ∈ f.children, atom a ∈ g.subformulas := by
      rw [subformulas_eq, List.mem_cons, List.mem_flatMap]
      exact or_iff_right fun heq => hatom a heq.symm
    rw [ih]
    simp [hinside, or_and_right, exists_or]

/-- The atoms of a formula are those that stand at its leaves. -/
theorem mem_atoms {f : Formula} {a : Atom} : a ∈ f.atoms ↔ atom a ∈ f.subformulas := by
  simp [atoms, mem_atomsFrom]

/-- An atom has itself, and any other formula has the atoms of its operands. -/
theorem mem_atoms_iff {f : Formula} {a : Atom} :
    a ∈ f.atoms ↔ f = atom a ∨ ∃ g ∈ f.children, a ∈ g.atoms := by
  simp only [mem_atoms]
  rw [subformulas_eq, List.mem_cons, List.mem_flatMap, eq_comm]

@[simp] theorem literal?_ofLiteral (l : Literal) : (ofLiteral l).literal? = some l := by
  obtain ⟨a, _ | _⟩ := l <;> rfl

/-- A formula stands for a literal only if it is the formula of that literal. -/
theorem literal?_eq_some_iff {f : Formula} {l : Literal} :
    f.literal? = some l ↔ f = ofLiteral l := by
  constructor
  · intro h
    unfold literal? at h
    split at h <;> cases h <;> rfl
  · rintro rfl
    exact literal?_ofLiteral l

example : conj [atom ⟨"p"⟩] ≠ atom ⟨"p"⟩ := by decide

example : (neg (atom ⟨"p"⟩)).literal? = some ⟨⟨"p"⟩, false⟩ := by decide

end Formula

end Subsumption
