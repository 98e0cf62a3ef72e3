import Mathlib.Data.List.Basic
import Subsumption.Random.FormulaSource
/-!
Bounds of random formulas.  A draw below a bound is below it, corrected or not, so an
atom is always found at the index drawn, and a formula is drawn whole, with operands
of one level less.
-/

namespace Subsumption

namespace Draw

variable {α β : Type} {d : Draw α} {p q : α → Prop} {r : β → Prop}

/-- From every state the draw succeeds, and its result has the property. -/
def Yields (d : Draw α) (p : α → Prop) : Prop := ∀ g, ∃ x g', d g = some (x, g') ∧ p x

theorem Yields.imp (hd : Yields d p) (h : ∀ x, p x → q x) : Yields d q := by
  intro g
  obtain ⟨x, g', hx, hp⟩ := hd g
  exact ⟨x, g', hx, h x hp⟩

theorem yields_pure {x : α} (hx : p x) : Yields (pure x) p := fun g => ⟨x, g, rfl, hx⟩

theorem Yields.bind {f : α → Draw β} (hd : Yields d p) (hf : ∀ x, p x → Yields (f x) r) :
    Yields (d >>= f) r := by
  intro g
  obtain ⟨x, g', hx, hp⟩ := hd g
  obtain ⟨y, g'', hy, hr⟩ := hf x hp g'
  refine ⟨y, g'', ?_, hr⟩
  change (d g).bind (fun drawn => f drawn.1 drawn.2) = some (y, g'')
  rw [hx]
  exact hy

/-- One draw for each item of a list. -/
theorem Yields.mapM {ι : Type} {f : ι → Draw α} (items : List ι)
    (hf : ∀ i ∈ items, Yields (f i) p) :
    Yields (items.mapM f) fun xs => xs.length = items.length ∧ ∀ x ∈ xs, p x := by
  induction items with
  | nil => exact yields_pure ⟨rfl, by simp⟩
  | cons i items ih =>
    obtain ⟨hi, hitems⟩ := List.forall_mem_cons.1 hf
    rw [List.mapM_cons]
    apply hi.bind
    intro x hx
    apply (ih hitems).bind
    rintro xs ⟨hlength, hxs⟩
    apply yields_pure
    exact ⟨congrArg (· + 1) hlength, List.forall_mem_cons.2 ⟨hx, hxs⟩⟩

theorem yields_word32 : Yields word32 fun _ => True := fun g => ⟨g.next.1, g.next.2, rfl, trivial⟩

theorem yields_word64 : Yields word64 fun _ => True :=
  yields_word32.bind fun _ _ => yields_word32.bind fun _ _ => yields_pure trivial

theorem yields_sign : Yields sign fun _ => True :=
  yields_word64.bind fun _ _ => yields_pure trivial

/-- The high half of a product with a bound is below the bound, and its successor
still is when the low half asks for a correction. -/
theorem high_lt {word bound : Nat} (hword : word < wordCount) (hpos : 0 < bound) :
    word * bound / wordCount < bound ∧
      (wordCount - bound < word * bound % wordCount →
        word * bound / wordCount + 1 < bound) := by
  have hlargest : word * bound + bound ≤ wordCount * bound := by
    rw [← Nat.succ_mul]
    exact Nat.mul_le_mul_right bound hword
  simp only [wordCount] at *
  omega

theorem yields_below {bound : Nat} (hpos : 0 < bound) : Yields (below bound) (· < bound) := by
  apply yields_word32.bind
  intro word _
  obtain ⟨hhigh, hcorrected⟩ := high_lt word.toNat_lt hpos
  dsimp only
  split
  · next hlow =>
    apply yields_word32.bind
    intro word' _
    apply yields_pure
    split
    · exact hcorrected hlow
    · exact hhigh
  · exact yields_pure hhigh

end Draw

namespace Formula

/-- How deep connectives are nested.  One without operands counts as much as an
atom. -/
def depth : Formula → Nat
  | atom _ => 0
  | neg f => f.depth + 1
  | conj fs => (fs.map fun f => f.depth + 1).foldr max 0
  | disj fs => (fs.map fun f => f.depth + 1).foldr max 0
  | imp f g => max f.depth g.depth + 1
  | iff f g => max f.depth g.depth + 1

example : (neg (conj [])).depth = 1 := by simp [depth]

theorem foldr_max_le_iff {numbers : List Nat} {bound : Nat} :
    numbers.foldr max 0 ≤ bound ↔ ∀ n ∈ numbers, n ≤ bound := by
  induction numbers with
  | nil => simp
  | cons n numbers ih => rw [List.foldr_cons, Nat.max_le, ih, List.forall_mem_cons]

/-- A formula is at most one level deeper than its operands. -/
theorem depth_le_succ_iff {f : Formula} {n : Nat} :
    f.depth ≤ n + 1 ↔ ∀ g ∈ f.children, g.depth ≤ n := by
  cases f with
  | imp f g | iff f g =>
    rw [depth, Nat.add_le_add_iff_right, Nat.max_le]
    simp [children]
  | _ => simp [depth, children, foldr_max_le_iff]

end Formula

namespace FormulaSource

open Draw Formula

/-- The formula has at most so many levels, no more operands in one place than the
source allows, and no atoms but those of the source. -/
structure Allows (s : FormulaSource) (levels : Nat) (f : Formula) : Prop where
  depth_le : f.depth ≤ levels
  length_le : ∀ gs, conj gs ∈ f.subformulas ∨ disj gs ∈ f.subformulas → gs.length ≤ s.maxWidth
  mem_atoms : ∀ a ∈ f.atoms, a ∈ s.atoms

variable {s : FormulaSource} {levels : Nat} {f g : Formula}

/-- An atom of the source, and the constant that stands for one where there is
none. -/
theorem allows_atom {a : Atom} (ha : a ∈ s.atoms) : s.Allows levels (Formula.atom a) where
  depth_le := by simp [depth]
  length_le := by simp [subformulas]
  mem_atoms := by simpa [Formula.mem_atoms, subformulas] using ha

theorem allows_conj_nil : s.Allows levels (conj []) where
  depth_le := by simp [depth]
  length_le := by simp [subformulas]
  mem_atoms := by simp [Formula.mem_atoms, subformulas]

/-- A connective over operands of one level less. -/
theorem Allows.of_children (hatom : f.isAtom = false)
    (hlength : ∀ gs, f = conj gs ∨ f = disj gs → gs.length ≤ s.maxWidth)
    (h : ∀ g ∈ f.children, s.Allows levels g) : s.Allows (levels + 1) f where
  depth_le := depth_le_succ_iff.2 fun g hg => (h g hg).depth_le
  length_le gs hgs := by
    rw [subformulas_eq f, List.mem_cons, List.mem_cons, List.mem_flatMap, List.mem_flatMap] at hgs
    rcases hgs with (hroot | ⟨g, hg, hinside⟩) | (hroot | ⟨g, hg, hinside⟩)
    · exact hlength gs (Or.inl hroot.symm)
    · exact (h g hg).length_le gs (Or.inl hinside)
    · exact hlength gs (Or.inr hroot.symm)
    · exact (h g hg).length_le gs (Or.inr hinside)
  mem_atoms a ha := by
    rcases mem_atoms_iff.1 ha with rfl | ⟨g, hg, hag⟩
    · cases hatom
    · exact (h g hg).mem_atoms a hag

/-- There is an atom at each index that is drawn. -/
theorem yields_atom (s : FormulaSource) (levels : Nat) : Yields s.atom (s.Allows levels) := by
  unfold FormulaSource.atom
  split
  · exact yields_pure allows_conj_nil
  · next hsome =>
    have hpos : 0 < s.atoms.length := by
      rw [List.isEmpty_iff] at hsome
      exact List.length_pos_iff.2 hsome
    apply (yields_below hpos).bind
    intro index hindex
    rw [List.getElem?_eq_getElem hindex]
    exact yields_pure (allows_atom (List.getElem_mem hindex))

theorem yields_literal (s : FormulaSource) : Yields s.literal fun _ => True := by
  apply (s.yields_atom 0).bind
  intro f _
  exact yields_sign.bind fun _ _ => yields_pure trivial

/-- At most as many operands as the source allows. -/
theorem yields_operands (h : Yields (s.ofDepth levels) (s.Allows levels)) :
    Yields (do
      let width ← below (s.maxWidth + 1)
      (List.range width).mapM fun _ => s.ofDepth levels)
      fun fs => fs.length ≤ s.maxWidth ∧ ∀ f ∈ fs, s.Allows levels f := by
  apply (yields_below (Nat.succ_pos s.maxWidth)).bind
  intro width hwidth
  have hdraws := Yields.mapM (List.range width) fun _ _ => h
  refine hdraws.imp ?_
  rintro fs ⟨hlength, hfs⟩
  rw [List.length_range] at hlength
  exact ⟨by omega, hfs⟩

theorem Allows.neg (hf : s.Allows levels f) : s.Allows (levels + 1) (neg f) :=
  .of_children rfl (by simp) (by simpa [children] using hf)

theorem Allows.conj {fs : List Formula} (hlength : fs.length ≤ s.maxWidth)
    (hfs : ∀ f ∈ fs, s.Allows levels f) : s.Allows (levels + 1) (conj fs) :=
  .of_children rfl (by simpa using hlength) hfs

theorem Allows.disj {fs : List Formula} (hlength : fs.length ≤ s.maxWidth)
    (hfs : ∀ f ∈ fs, s.Allows levels f) : s.Allows (levels + 1) (disj fs) :=
  .of_children rfl (by simpa using hlength) hfs

theorem Allows.imp (hf : s.Allows levels f) (hg : s.Allows levels g) :
    s.Allows (levels + 1) (imp f g) :=
  .of_children rfl (by simp) (by simpa [children] using ⟨hf, hg⟩)

theorem Allows.iff (hf : s.Allows levels f) (hg : s.Allows levels g) :
    s.Allows (levels + 1) (iff f g) :=
  .of_children rfl (by simp) (by simpa [children] using ⟨hf, hg⟩)

/-- Each level draws its operands one level down. -/
theorem yields_ofDepth (s : FormulaSource) (levels : Nat) :
    Yields (s.ofDepth levels) (s.Allows levels) := by
  induction levels with
  | zero => exact s.yields_atom 0
  | succ levels ih =>
    have hoperands := yields_operands ih
    rw [ofDepth]
    apply (yields_below (by decide)).bind
    intro choice _
    split
    · exact s.yields_atom _
    · exact ih.bind fun f hf => yields_pure hf.neg
    · exact hoperands.bind fun fs hfs => yields_pure (.conj hfs.1 hfs.2)
    · exact hoperands.bind fun fs hfs => yields_pure (.conj hfs.1 hfs.2)
    · exact hoperands.bind fun fs hfs => yields_pure (.disj hfs.1 hfs.2)
    · exact ih.bind fun f hf => ih.bind fun g hg => yields_pure (hf.imp hg)
    · exact ih.bind fun f hf => ih.bind fun g hg => yields_pure (hf.iff hg)

/-- What can be asked of a source. -/
inductive Request where
  | atom
  | literal
  | formula

def draw (s : FormulaSource) : Request → Draw Formula
  | .atom => s.atom
  | .literal => s.literal
  | .formula => s.formula

theorem yields_draw (s : FormulaSource) (request : Request) :
    Yields (s.draw request) fun _ => True := by
  cases request with
  | atom => exact (s.yields_atom 0).imp fun _ _ => trivial
  | literal => exact s.yields_literal
  | formula => exact (s.yields_ofDepth s.maxDepth).imp fun _ _ => trivial

/-- Whatever was drawn before, and in whatever state the drawing began, the next
formula is drawn without fail.  It is no deeper than was asked for, no conjunction
and no disjunction in it has more than three operands, and its atoms are among those
that were given.  The index of an atom is below their number, as any number drawn
below a bound is below it, corrected or not. -/
theorem formula_within_bounds (atoms : List Atom) (maxDepth : Nat) (earlier : List Request)
    (g : Pcg) :
    (∃ drawn g' f g'', earlier.mapM (draw { atoms, maxDepth }) g = some (drawn, g') ∧
      FormulaSource.formula { atoms, maxDepth } g' = some (f, g'') ∧
      f.depth ≤ maxDepth ∧
      (∀ gs, Formula.conj gs ∈ f.subformulas ∨ Formula.disj gs ∈ f.subformulas →
        gs.length ≤ 3) ∧
      ∀ a ∈ f.atoms, a ∈ atoms) ∧
    ∀ largest, ∃ n g', below (largest + 1) g = some (n, g') ∧ n ≤ largest := by
  let s : FormulaSource := { atoms, maxDepth }
  constructor
  · have hearlier := Yields.mapM earlier fun request _ => s.yields_draw request
    obtain ⟨drawn, g', hdrawn, -⟩ := hearlier g
    obtain ⟨f, g'', hf, hallows⟩ := s.yields_ofDepth maxDepth g'
    exact ⟨drawn, g', f, g'', hdrawn, hf, hallows.depth_le, hallows.length_le, hallows.mem_atoms⟩
  · intro largest
    obtain ⟨n, g', hn, hlt⟩ := yields_below (Nat.succ_pos largest) g
    exact ⟨n, g', hn, Nat.le_of_lt_succ hlt⟩

end FormulaSource

end Subsumption
