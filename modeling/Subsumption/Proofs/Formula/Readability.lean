import Subsumption.Formula.Evaluation
import Subsumption.Formula.Text
import Subsumption.Proofs.Formula.Unwrapping
import Subsumption.Proofs.SelfDelimiting
/-!
Unique readability.  The first character of a text tells a word, a negation and a
parenthesis apart, and the text shows where it ends.  Two formulas with the same text
differ by connectives of one operand only.
-/

namespace Subsumption

/-- A letter, a digit or an underscore. -/
def isNameChar (c : Char) : Bool := c.isAlphanum || c == '_'

/-- A name of letters, digits and underscores that does not stand for a constant. -/
structure Atom.Identifier (a : Atom) : Prop where
  ne_empty : a.name ≠ ""
  isNameChar : ∀ c ∈ a.name.toList, isNameChar c = true
  ne_true : a.name ≠ "true"
  ne_false : a.name ≠ "false"

instance (a : Atom) : Decidable a.Identifier :=
  decidable_of_iff
    (a.name ≠ "" ∧ a.name.toList.all isNameChar = true ∧ a.name ≠ "true" ∧ a.name ≠ "false")
    ⟨fun ⟨hempty, hchars, htrue, hfalse⟩ => ⟨hempty, List.all_eq_true.1 hchars, htrue, hfalse⟩,
      fun h => ⟨h.ne_empty, List.all_eq_true.2 h.isNameChar, h.ne_true, h.ne_false⟩⟩

namespace Formula

variable {f g : Formula}

/-- Induction on a formula where all connectives are alike. -/
theorem childrenRec {motive : Formula → Prop}
    (step : ∀ f, (∀ g ∈ f.children, motive g) → motive f) (f : Formula) : motive f := by
  induction f with
  | atom a => exact step _ (by simp [children])
  | neg f ih => exact step _ (by simpa [children] using ih)
  | conj fs ih => exact step _ ih
  | disj fs ih => exact step _ ih
  | imp f g ihf ihg => exact step _ (by simpa [children] using ⟨ihf, ihg⟩)
  | iff f g ihf ihg => exact step _ (by simpa [children] using ⟨ihf, ihg⟩)

theorem Unwrapped.of_children (hchildren : ∀ g ∈ f.children, g.Unwrapped)
    (hconj : ∀ gs, f = conj gs → gs.length ≠ 1) (hdisj : ∀ gs, f = disj gs → gs.length ≠ 1) :
    f.Unwrapped := by
  constructor
  · intro gs hgs
    rw [subformulas_eq, List.mem_cons, List.mem_flatMap] at hgs
    rcases hgs with hroot | ⟨g, hg, hinside⟩
    · exact hconj gs hroot.symm
    · exact (hchildren g hg).length_conj gs hinside
  · intro gs hgs
    rw [subformulas_eq, List.mem_cons, List.mem_flatMap] at hgs
    rcases hgs with hroot | ⟨g, hg, hinside⟩
    · exact hdisj gs hroot.symm
    · exact (hchildren g hg).length_disj gs hinside

theorem unwrapped_wrap {connective : List Formula → Formula} {fs : List Formula}
    (hfs : ∀ f ∈ fs, f.Unwrapped)
    (hconnective : fs.length ≠ 1 → (connective fs).Unwrapped) :
    (wrap connective fs).Unwrapped := by
  match fs with
  | [] => exact hconnective nofun
  | [f] => exact hfs f (.head _)
  | f :: g :: rest => exact hconnective nofun

/-- Taking superfluous connectives away leaves none. -/
theorem unwrapped_unwrap (f : Formula) : f.unwrap.Unwrapped := by
  induction f with
  | atom a =>
    rw [unwrap]
    exact .of_children (by simp [children]) (by simp) (by simp)
  | neg f ih =>
    rw [unwrap]
    exact .of_children (by simpa [children] using ih) (by simp) (by simp)
  | conj fs ih =>
    rw [unwrap]
    have hfs : ∀ f ∈ fs.map unwrap, f.Unwrapped := List.forall_mem_map.2 ih
    apply unwrapped_wrap hfs
    intro hlength
    exact .of_children hfs (by simpa using hlength) (by simp)
  | disj fs ih =>
    rw [unwrap]
    have hfs : ∀ f ∈ fs.map unwrap, f.Unwrapped := List.forall_mem_map.2 ih
    apply unwrapped_wrap hfs
    intro hlength
    exact .of_children hfs (by simp) (by simpa using hlength)
  | imp f g ihf ihg =>
    rw [unwrap]
    exact .of_children (by simpa [children] using ⟨ihf, ihg⟩) (by simp) (by simp)
  | iff f g ihf ihg =>
    rw [unwrap]
    exact .of_children (by simpa [children] using ⟨ihf, ihg⟩) (by simp) (by simp)

/-- What is seen of a formula comes from what is seen of its operands, and a connective
over one operand is not seen. -/
structure SeesThrough {α : Type} (view : Formula → α) : Prop where
  neg {f g : Formula} : view f = view g → view (neg f) = view (neg g)
  conj {fs gs : List Formula} : fs.map view = gs.map view → view (conj fs) = view (conj gs)
  disj {fs gs : List Formula} : fs.map view = gs.map view → view (disj fs) = view (disj gs)
  imp {f f' g g' : Formula} : view f = view f' → view g = view g' →
    view (imp f g) = view (imp f' g')
  iff {f f' g g' : Formula} : view f = view f' → view g = view g' →
    view (iff f g) = view (iff f' g')
  conj_singleton (f : Formula) : view (.conj [f]) = view f
  disj_singleton (f : Formula) : view (.disj [f]) = view f

/-- Taking superfluous connectives away is not seen. -/
theorem SeesThrough.view_unwrap {α : Type} {view : Formula → α} (h : SeesThrough view)
    (f : Formula) : view f.unwrap = view f := by
  have hwrap {connective : List Formula → Formula}
      (hlone : ∀ f, view (connective [f]) = view f) (fs : List Formula) :
      view (wrap connective fs) = view (connective fs) := by
    rcases fs with - | ⟨f, - | ⟨g, rest⟩⟩
    · rfl
    · exact (hlone f).symm
    · rfl
  induction f with
  | atom a => rw [unwrap]
  | neg f ih =>
    rw [unwrap]
    exact h.neg ih
  | conj fs ih =>
    rw [unwrap, hwrap h.conj_singleton]
    exact h.conj (by simpa using ih)
  | disj fs ih =>
    rw [unwrap, hwrap h.disj_singleton]
    exact h.disj (by simpa using ih)
  | imp f g ihf ihg =>
    rw [unwrap]
    exact h.imp ihf ihg
  | iff f g ihf ihg =>
    rw [unwrap]
    exact h.iff ihf ihg

theorem seesThrough_text : SeesThrough text where
  neg h := by rw [text, text, h]
  conj h := by rw [text, text, h]
  disj h := by rw [text, text, h]
  imp h h' := by rw [text, text, h, h']
  iff h h' := by rw [text, text, h, h']
  conj_singleton f := by simp [text, joined]
  disj_singleton f := by simp [text, joined]

theorem seesThrough_eval (v : Valuation) : SeesThrough (eval v) where
  neg h := by rw [eval_neg, eval_neg, h]
  conj h := by rw [eval_conj, eval_conj, h]
  disj h := by rw [eval_disj, eval_disj, h]
  imp h h' := by rw [eval_imp, eval_imp, h, h']
  iff h h' := by rw [eval_iff, eval_iff, h, h']
  conj_singleton f := by simp
  disj_singleton f := by simp

theorem seesThrough_atoms : SeesThrough atoms := by
  have hmem {f : Formula} (hf : f.isAtom = false) (a : Atom) :
      a ∈ f.atoms ↔ ∃ s ∈ f.children.map atoms, a ∈ s := by
    have hroot : f ≠ atom a := by
      rintro rfl
      cases hf
    rw [mem_atoms_iff, or_iff_right hroot]
    simp
  have hcongr {f g : Formula} (hf : f.isAtom = false) (hg : g.isAtom = false)
      (h : f.children.map atoms = g.children.map atoms) : f.atoms = g.atoms := by
    apply Std.ExtTreeSet.ext_mem
    intro a
    rw [hmem hf, hmem hg, h]
  have hlone {f g : Formula} (hchildren : g.children = [f]) (hg : g.isAtom = false) :
      g.atoms = f.atoms := by
    apply Std.ExtTreeSet.ext_mem
    intro a
    simp [hmem hg, hchildren]
  exact {
    neg := fun h => hcongr rfl rfl (by simpa [children] using h)
    conj := fun h => hcongr rfl rfl h
    disj := fun h => hcongr rfl rfl h
    imp := fun h h' => hcongr rfl rfl (by simpa [children] using ⟨h, h'⟩)
    iff := fun h h' => hcongr rfl rfl (by simpa [children] using ⟨h, h'⟩)
    conj_singleton := fun _ => hlone rfl rfl
    disj_singleton := fun _ => hlone rfl rfl }

/-- What stands between two operands. -/
inductive Connective where
  | conj
  | disj
  | imp
  | iff

namespace Connective

def separator : Connective → List Char
  | conj => [' ', '&', ' ']
  | disj => [' ', '|', ' ']
  | imp => [' ', '-', '>', ' ']
  | iff => [' ', '<', '-', '>', ' ']

/-- An operand with the connective before it. -/
def operand (c : Connective) (f : Formula) : List Char := c.separator ++ f.text.toList

variable {c c' : Connective} {rest rest' : List Char}

theorem separator_eq_cons (c : Connective) : ∃ s, c.separator = ' ' :: s := by
  cases c <;> exact ⟨_, rfl⟩

theorem separator_append_inj (h : c.separator ++ rest = c'.separator ++ rest') :
    c = c' ∧ rest = rest' := by
  cases c <;> cases c' <;> simp_all [separator]

end Connective

/-- The formula is written as a word. -/
inductive IsWord : List Char → Formula → Prop
  | atom {a : Atom} : a.Identifier → IsWord a.name.toList (atom a)
  | noConjuncts : IsWord "true".toList (conj [])
  | noDisjuncts : IsWord "false".toList (disj [])

/-- The formula is written as two operands or more, `first` and those `after` it, with
the connective before each but the first. -/
inductive Joins : Connective → Formula → List Formula → Formula → Prop
  | conj (f g : Formula) (rest : List Formula) : Joins .conj f (g :: rest) (conj (f :: g :: rest))
  | disj (f g : Formula) (rest : List Formula) : Joins .disj f (g :: rest) (disj (f :: g :: rest))
  | imp (f g : Formula) : Joins .imp f [g] (imp f g)
  | iff (f g : Formula) : Joins .iff f [g] (iff f g)

/-- A formula that can be read back. -/
structure Readable (f : Formula) : Prop where
  unwrapped : f.Unwrapped
  identifier : ∀ a ∈ f.atoms, a.Identifier

/-- The ways in which a formula that can be read back is written. -/
inductive Shape : Formula → Prop
  | word {w : List Char} {f : Formula} : IsWord w f → Shape f
  | minus (f : Formula) : Shape (neg f)
  | joined {c : Connective} {first f : Formula} {after : List Formula} :
      Joins c first after f → Shape f

theorem Readable.shape (h : f.Readable) : Shape f := by
  cases f with
  | atom a => exact .word (.atom (h.identifier a (mem_atoms_iff.2 (Or.inl rfl))))
  | neg f => exact .minus f
  | conj fs =>
    rcases fs with - | ⟨f, - | ⟨g, rest⟩⟩
    · exact .word .noConjuncts
    · exact absurd rfl (h.unwrapped.length_conj [f] (by simp [subformulas]))
    · exact .joined (.conj f g rest)
  | disj fs =>
    rcases fs with - | ⟨f, - | ⟨g, rest⟩⟩
    · exact .word .noDisjuncts
    · exact absurd rfl (h.unwrapped.length_disj [f] (by simp [subformulas]))
    · exact .joined (.disj f g rest)
  | imp f g => exact .joined (.imp f g)
  | iff f g => exact .joined (.iff f g)

theorem Readable.of_mem_children (h : f.Readable) (hg : g ∈ f.children) : g.Readable where
  unwrapped := h.unwrapped.of_mem_children hg
  identifier a ha := h.identifier a (mem_atoms_iff.2 (Or.inr ⟨g, hg, ha⟩))

variable {w w' rest rest' : List Char} {c c' : Connective} {first first' : Formula}
  {after after' : List Formula}

namespace IsWord

theorem toList_text (h : IsWord w f) : f.text.toList = w := by
  cases h <;> simp [text, joined]

theorem ne_nil (h : IsWord w f) : w ≠ [] := by
  cases h with
  | atom ha => exact fun hempty => ha.ne_empty (String.toList_eq_nil_iff.1 hempty)
  | noConjuncts => decide
  | noDisjuncts => decide

theorem isNameChar (h : IsWord w f) : ∀ d ∈ w, isNameChar d = true := by
  cases h with
  | atom ha => exact ha.isNameChar
  | noConjuncts => exact List.all_eq_true.1 (by decide)
  | noDisjuncts => exact List.all_eq_true.1 (by decide)

/-- A word begins with a character of names. -/
theorem append_ne (h : IsWord w f) {d : Char} (hd : Subsumption.isNameChar d = false) :
    w ++ rest ≠ d :: rest' := by
  intro htext
  obtain ⟨e, w, rfl⟩ := List.exists_cons_of_ne_nil h.ne_nil
  have he := h.isNameChar e (.head _)
  rw [(List.cons.inj htext).1, hd] at he
  cases he

/-- The constants are no names. -/
theorem eq (h : IsWord w f) (h' : IsWord w' g) (hsame : w = w') : f = g := by
  cases h with
  | @atom a ha =>
    cases h' with
    | @atom b hb =>
      have hname : a.name = b.name := String.toList_inj.1 hsame
      cases a
      cases b
      cases hname
      rfl
    | noConjuncts => exact absurd (String.toList_inj.1 hsame) ha.ne_true
    | noDisjuncts => exact absurd (String.toList_inj.1 hsame) ha.ne_false
  | noConjuncts =>
    cases h' with
    | atom hb => exact absurd (String.toList_inj.1 hsame.symm) hb.ne_true
    | noConjuncts => rfl
    | noDisjuncts => cases hsame
  | noDisjuncts =>
    cases h' with
    | atom hb => exact absurd (String.toList_inj.1 hsame.symm) hb.ne_false
    | noConjuncts => cases hsame
    | noDisjuncts => rfl

end IsWord

theorem intercalate_cons_eq_flatMap (separator item : List Char) (items : List (List Char)) :
    separator.intercalate (item :: items) = item ++ items.flatMap (separator ++ ·) := by
  induction items generalizing item with
  | nil => simp
  | cons next items ih =>
    rw [List.intercalate_cons_cons, ih, List.flatMap_cons, List.append_assoc, List.append_assoc]

namespace Joins

theorem toList_text (h : Joins c first after f) :
    f.text.toList = '(' :: (first.text.toList ++ (after.flatMap c.operand ++ [')'])) := by
  cases h with
  | conj f g rest =>
    have hoperand : Connective.conj.operand = fun f => ' ' :: '&' :: ' ' :: f.text.toList := rfl
    simp [text, joined, intercalate_cons_eq_flatMap, List.flatMap_map, hoperand]
  | disj f g rest =>
    have hoperand : Connective.disj.operand = fun f => ' ' :: '|' :: ' ' :: f.text.toList := rfl
    simp [text, joined, intercalate_cons_eq_flatMap, List.flatMap_map, hoperand]
  | imp f g => simp [text, Connective.operand, Connective.separator]
  | iff f g => simp [text, Connective.operand, Connective.separator]

theorem children_eq (h : Joins c first after f) : f.children = first :: after := by
  cases h <;> rfl

theorem after_ne_nil (h : Joins c first after f) : after ≠ [] := by
  cases h <;> exact List.cons_ne_nil _ _

theorem eq (h : Joins c first after f) (h' : Joins c first after g) : f = g := by
  cases h <;> cases h' <;> rfl

/-- The first separator shows the connective. -/
theorem connective_eq (h : Joins c first after f) (h' : Joins c' first' after' g)
    (hsame : after.flatMap c.operand ++ rest = after'.flatMap c'.operand ++ rest') : c = c' := by
  obtain ⟨next, after, rfl⟩ := List.exists_cons_of_ne_nil h.after_ne_nil
  obtain ⟨next', after', rfl⟩ := List.exists_cons_of_ne_nil h'.after_ne_nil
  simp only [List.flatMap_cons, Connective.operand, List.append_assoc] at hsame
  exact (Connective.separator_append_inj hsame).1

end Joins

/-- No word goes on in the text. -/
def EndsWord (rest : List Char) : Prop := ∀ d ∈ rest.head?, isNameChar d = false

theorem toList_text_neg (f : Formula) : (neg f).text.toList = '-' :: f.text.toList := by
  simp [text]

theorem EndsWord.operands (c : Connective) (fs : List Formula) (rest : List Char) :
    EndsWord (fs.flatMap c.operand ++ ')' :: rest) := by
  cases fs with
  | nil =>
    rintro d ⟨⟩
    decide
  | cons f fs =>
    obtain ⟨s, hs⟩ := c.separator_eq_cons
    rw [List.flatMap_cons, Connective.operand, hs]
    rintro d ⟨⟩
    decide

theorem Connective.operand_append_ne (c : Connective) (f : Formula) (rest rest' : List Char) :
    c.operand f ++ rest ≠ ')' :: rest' := by
  obtain ⟨s, hs⟩ := c.separator_eq_cons
  rw [operand, hs]
  exact fun h => absurd (List.cons.inj h).1 (by decide)

/-- The text of a formula shows where it ends. -/
abbrev ReadsBack (f : Formula) : Prop :=
  Delimited (fun f => f.text.toList) Readable EndsWord f

/-- A word is read back, as no other formula begins with a character of names. -/
theorem IsWord.readsBack (h : IsWord w f) : ReadsBack f := by
  intro g hg rest rest' hrest hrest' hsame
  beta_reduce at hsame
  rw [h.toList_text] at hsame
  cases hg.shape with
  | word h' =>
    rw [h'.toList_text] at hsame
    obtain ⟨hword, hafter⟩ := word_append_inj h.isNameChar h'.isNameChar hrest hrest' hsame
    exact ⟨h.eq h' hword, hafter⟩
  | minus g =>
    rw [toList_text_neg, List.cons_append] at hsame
    exact absurd hsame (h.append_ne (by decide))
  | joined h' =>
    rw [h'.toList_text, List.cons_append] at hsame
    exact absurd hsame (h.append_ne (by decide))

theorem readsBack_neg (hf : ReadsBack f) : ReadsBack (neg f) := by
  intro g hg rest rest' hrest hrest' hsame
  beta_reduce at hsame
  rw [toList_text_neg, List.cons_append] at hsame
  cases hg.shape with
  | word h' =>
    rw [h'.toList_text] at hsame
    exact absurd hsame.symm (h'.append_ne (by decide))
  | minus g =>
    rw [toList_text_neg, List.cons_append] at hsame
    have hg : g.Readable := hg.of_mem_children (by simp [children])
    obtain ⟨rfl, hafter⟩ := hf g hg rest rest' hrest hrest' (List.cons.inj hsame).2
    exact ⟨rfl, hafter⟩
  | joined h' =>
    rw [h'.toList_text, List.cons_append] at hsame
    exact absurd (List.cons.inj hsame).1 (by decide)

/-- Once the first operand is read, the separator shows the connective, and the other
operands are read one after the other up to the parenthesis. -/
theorem Joins.readsBack (h : Joins c first after f) (hfirst : ReadsBack first)
    (hafter : ∀ g ∈ after, ReadsBack g) : ReadsBack f := by
  intro g hg rest rest' hrest hrest' hsame
  beta_reduce at hsame
  rw [h.toList_text, List.cons_append] at hsame
  cases hg.shape with
  | word h' =>
    rw [h'.toList_text] at hsame
    exact absurd hsame.symm (h'.append_ne (by decide))
  | minus g =>
    rw [toList_text_neg, List.cons_append] at hsame
    exact absurd (List.cons.inj hsame).1 (by decide)
  | @joined c' first' _ after' h' =>
    have hoperands : ∀ g ∈ first' :: after', g.Readable := fun g hmem =>
      hg.of_mem_children (h'.children_eq ▸ hmem)
    obtain ⟨hfirst', hafter'⟩ := List.forall_mem_cons.1 hoperands
    simp only [h'.toList_text, List.cons_append, List.append_assoc, List.nil_append,
      List.cons.injEq, true_and] at hsame
    obtain ⟨rfl, hothers⟩ := hfirst first' hfirst' _ _ (EndsWord.operands c after rest)
      (EndsWord.operands c' after' rest') hsame
    obtain rfl := h.connective_eq h' hothers
    obtain ⟨rfl, hend⟩ := flatMap_append_mark_inj
      (fun g hg => (hafter g hg).append_left c.separator) hafter' (EndsWord.operands c)
      c.operand_append_ne hothers
    exact ⟨h.eq h', hend⟩

/-- Every formula that can be read back is, by induction on the formula: what is read in
front of an operand is a separator, a minus sign or a parenthesis. -/
theorem Readable.readsBack (hf : f.Readable) : ReadsBack f := by
  induction f using childrenRec with
  | step f ih =>
    have hchildren : ∀ g ∈ f.children, ReadsBack g := fun g hg => ih g hg (hf.of_mem_children hg)
    cases hf.shape with
    | word h => exact h.readsBack
    | minus f => exact readsBack_neg (hchildren f (by simp [children]))
    | joined h =>
      rw [h.children_eq] at hchildren
      obtain ⟨hfirst, hafter⟩ := List.forall_mem_cons.1 hchildren
      exact h.readsBack hfirst hafter

theorem readable_unwrap (hf : ∀ a ∈ f.atoms, a.Identifier) : f.unwrap.Readable where
  unwrapped := unwrapped_unwrap f
  identifier := by rwa [seesThrough_atoms.view_unwrap]

/-- Formulas over identifiers have the same text only if they differ by connectives with
one operand, and then have the same value under every valuation. -/
theorem text_eq_iff_unwrap_eq (hf : ∀ a ∈ f.atoms, a.Identifier)
    (hg : ∀ a ∈ g.atoms, a.Identifier) :
    (f.text = g.text ↔ f.unwrap = g.unwrap) ∧
      (f.text = g.text → ∀ v, f.eval v = g.eval v) := by
  have hunwrap (h : f.text = g.text) : f.unwrap = g.unwrap := by
    have hsame : f.unwrap.text.toList ++ [] = g.unwrap.text.toList ++ [] := by
      rw [seesThrough_text.view_unwrap, seesThrough_text.view_unwrap, h]
    exact ((readable_unwrap hf).readsBack _ (readable_unwrap hg) [] [] nofun nofun hsame).1
  refine ⟨⟨hunwrap, fun h => ?_⟩, fun h v => ?_⟩
  · rw [← seesThrough_text.view_unwrap f, h, seesThrough_text.view_unwrap]
  · rw [← (seesThrough_eval v).view_unwrap f, hunwrap h, (seesThrough_eval v).view_unwrap]

/-- Two formulas that are written `((p | -q) & p)`. -/
theorem text_eq_iff_unwrap_eq_lone_operands :
    let p : Formula := atom ⟨"p"⟩
    let q : Formula := atom ⟨"q"⟩
    let f := conj [disj [p, neg (conj [q])], p]
    let g := disj [conj [disj [conj [p], neg q], p]]
    (∀ a ∈ f.atoms, a.Identifier) ∧ (∀ a ∈ g.atoms, a.Identifier) ∧ f.text = g.text ∧
      f.unwrap = g.unwrap ∧ ∀ v, f.eval v = g.eval v := by
  intro p q f g
  have hp : Atom.Identifier ⟨"p"⟩ := by decide
  have hq : Atom.Identifier ⟨"q"⟩ := by decide
  have hf : ∀ a ∈ f.atoms, a.Identifier := by
    simp [f, p, q, mem_atoms, subformulas, hp, hq]
  have hg : ∀ a ∈ g.atoms, a.Identifier := by
    simp [g, p, q, mem_atoms, subformulas, hp, hq]
  obtain ⟨hiff, heval⟩ := text_eq_iff_unwrap_eq hf hg
  have hsame : f.text = g.text := by simp [f, g, p, q, text, joined]
  exact ⟨hf, hg, hsame, hiff.1 hsame, heval hsame⟩

end Formula

end Subsumption
