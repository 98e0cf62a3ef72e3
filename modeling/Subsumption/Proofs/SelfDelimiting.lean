import Mathlib.Data.List.Basic
/-!
Texts that show where they end: before anything that may follow, what is written for
an item can be read as that item only, and no further or less far.  Delimited items
written one after the other are read in one way only.
-/

namespace Subsumption

/-- Where the text of the item stands before what may follow, it is the text of no
other item of the kind, and ends nowhere else. -/
def Delimited {α : Type} (write : α → List Char) (kind : α → Prop) (follows : List Char → Prop)
    (x : α) : Prop :=
  ∀ y, kind y → ∀ rest rest', follows rest → follows rest' →
    write x ++ rest = write y ++ rest' → x = y ∧ rest = rest'

variable {α : Type} {write : α → List Char} {kind : α → Prop} {follows : List Char → Prop}
  {xs ys : List α} {mark : Char} {rest rest' : List Char}

/-- What all items are written after does not matter. -/
theorem Delimited.append_left {x : α} (h : Delimited write kind follows x) (before : List Char) :
    Delimited (fun x => before ++ write x) kind follows x := by
  intro y hy rest rest' hrest hrest' htext
  rw [List.append_assoc, List.append_assoc] at htext
  exact h y hy rest rest' hrest hrest' (List.append_cancel_left htext)

/-- Delimited items up to a mark are read in one way. -/
theorem flatMap_append_mark_inj (hxs : ∀ x ∈ xs, Delimited write kind follows x)
    (hys : ∀ y ∈ ys, kind y)
    (hfollows : ∀ items rest, follows (List.flatMap write items ++ mark :: rest))
    (hmark : ∀ x rest rest', write x ++ rest ≠ mark :: rest')
    (h : xs.flatMap write ++ mark :: rest = ys.flatMap write ++ mark :: rest') :
    xs = ys ∧ rest = rest' := by
  induction xs generalizing ys with
  | nil =>
    cases ys with
    | nil => exact ⟨rfl, (List.cons.inj h).2⟩
    | cons y ys =>
      rw [List.flatMap_cons, List.append_assoc] at h
      exact absurd h.symm (hmark y _ _)
  | cons x xs ih =>
    cases ys with
    | nil =>
      rw [List.flatMap_cons, List.append_assoc] at h
      exact absurd h (hmark x _ _)
    | cons y ys =>
      obtain ⟨hfirst, hothers⟩ := List.forall_mem_cons.1 hxs
      obtain ⟨hkind, hkinds⟩ := List.forall_mem_cons.1 hys
      rw [List.flatMap_cons, List.flatMap_cons, List.append_assoc, List.append_assoc] at h
      obtain ⟨hxy, hafter⟩ := hfirst y hkind _ _ (hfollows xs rest) (hfollows ys rest') h
      obtain ⟨hsame, hrest⟩ := ih hothers hkinds hafter
      exact ⟨List.cons_eq_cons.2 ⟨hxy, hsame⟩, hrest⟩

variable {isWordChar : Char → Bool} {word word' : List Char}

/-- The scan for the end of a word stops where no word goes on. -/
theorem span_append_of_word (hword : ∀ c ∈ word, isWordChar c = true)
    (hrest : ∀ c ∈ rest.head?, isWordChar c = false) :
    (word ++ rest).takeWhile isWordChar = word ∧ (word ++ rest).dropWhile isWordChar = rest := by
  rw [List.takeWhile_append_of_pos hword, List.dropWhile_append_of_pos hword]
  cases rest with
  | nil => simp
  | cons c rest => simp [hrest c rfl]

theorem word_append_inj (hword : ∀ c ∈ word, isWordChar c = true)
    (hword' : ∀ c ∈ word', isWordChar c = true) (hrest : ∀ c ∈ rest.head?, isWordChar c = false)
    (hrest' : ∀ c ∈ rest'.head?, isWordChar c = false) (h : word ++ rest = word' ++ rest') :
    word = word' ∧ rest = rest' := by
  obtain ⟨htake, hdrop⟩ := span_append_of_word hword hrest
  obtain ⟨htake', hdrop'⟩ := span_append_of_word hword' hrest'
  rw [h] at htake hdrop
  exact ⟨htake.symm.trans htake', hdrop.symm.trans hdrop'⟩

end Subsumption
