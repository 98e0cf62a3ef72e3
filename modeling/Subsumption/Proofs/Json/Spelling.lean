import Subsumption.Proofs.Json.Quoting
import Subsumption.Proofs.SelfDelimiting
/-!
Characters and the tokens that they spell before what begins no word, as a word could
go on.  A mark begins no word, so values between marks spell their tokens
independently of each other.
-/

namespace Subsumption.Json

/-- No word begins with, or goes on into, these characters. -/
def NoWord (cs : List Char) : Prop := ∀ c ∈ cs.head?, isWordChar c = false

theorem noWord_nil : NoWord [] := by
  intro c hc
  cases hc

/-- The characters are all of the kind that words are made of. -/
def IsWord (cs : List Char) : Prop := ∀ c ∈ cs, isWordChar c = true

instance (cs : List Char) : Decidable (IsWord cs) :=
  decidable_of_iff (cs.all isWordChar = true) List.all_eq_true

/-- The characters are cut into the tokens, unless they run into a word. -/
def Spells (cs : List Char) (tokens : List Token) : Prop :=
  ∀ rest, NoWord rest → tokens? (cs ++ rest) = (tokens? rest).map (tokens ++ ·)

variable {c : Char} {cs cs' rest : List Char} {token mark : Token} {tokens tokens' : List Token}

theorem Spells.tokens?_eq (h : Spells cs tokens) : tokens? cs = some tokens := by
  have hcs := h [] noWord_nil
  simpa [tokens?] using hcs

theorem spells_nil : Spells [] [] := by
  intro rest _
  simp

theorem tokens?_mark (h : punctuation? c = some mark) (rest : List Char) :
    tokens? (c :: rest) = (tokens? rest).map (mark :: ·) := by
  have hblank : isBlank c = false := by
    unfold punctuation? at h
    split at h <;> first | rfl | cases h
  have hquote : c ≠ '"' := by
    rintro rfl
    cases h
  rw [tokens?]
  simp [hblank, hquote, h]

theorem noWord_mark (h : punctuation? c = some mark) (cs : List Char) : NoWord (c :: cs) := by
  intro d hd
  obtain rfl : c = d := by simpa using hd
  unfold punctuation? at h
  split at h <;> first | rfl | cases h

theorem Spells.mark_cons (hc : punctuation? c = some mark) (h : Spells cs tokens) :
    Spells (c :: cs) (mark :: tokens) := by
  intro rest hrest
  rw [List.cons_append, tokens?_mark hc, h rest hrest]
  simp [Function.comp_def]

/-- A mark separates what is before it from what is after it. -/
theorem Spells.append_mark (h : Spells cs tokens) (hc : punctuation? c = some mark)
    (h' : Spells cs' tokens') : Spells (cs ++ c :: cs') (tokens ++ mark :: tokens') := by
  intro rest hrest
  have hcs := h (c :: cs' ++ rest) (noWord_mark hc _)
  rw [List.append_assoc, hcs, h'.mark_cons hc rest hrest]
  simp [Function.comp_def]

/-- What is spelled by all parts is spelled by the parts with commas between
them. -/
theorem Spells.intercalate {α : Type} {write : α → List Char} {spell : α → List Token}
    {l : List α} (h : ∀ a ∈ l, Spells (write a) (spell a)) :
    Spells ([','].intercalate (l.map write)) ([.comma].intercalate (l.map spell)) := by
  induction l with
  | nil => exact spells_nil
  | cons a l ih =>
    have ha : Spells (write a) (spell a) := h a List.mem_cons_self
    have hl := ih fun b hb => h b (List.mem_cons_of_mem a hb)
    cases l with
    | nil => simpa using ha
    | cons b l =>
      simp only [List.map_cons, List.intercalate_cons_cons, List.append_assoc] at hl ⊢
      exact ha.append_mark rfl hl

/-- A quote begins a string, and what follows is cut after the closing quote. -/
theorem tokens?_quote {raw after : List Char} (h : splitQuoted? cs = some (raw, after)) :
    tokens? ('"' :: cs) =
      (decode? raw).bind fun text => (tokens? after).map (.string text :: ·) := by
  generalize htext : '"' :: cs = text
  fun_cases tokens? text with
  | case1 => cases htext
  | case2 c rest hblank =>
    cases htext
    exact absurd hblank (by decide)
  | case3 rest hnone =>
    cases htext
    exact absurd (hnone.symm.trans h) nofun
  | case4 rest raw' after' hsome =>
    cases htext
    obtain ⟨rfl, rfl⟩ := Prod.mk.inj (Option.some.inj (hsome.symm.trans h))
    simp [bind_some_cons]
  | case5 c rest _ hquote =>
    cases htext
    exact absurd rfl hquote
  | case6 c rest _ hquote =>
    cases htext
    exact absurd rfl hquote

theorem spells_quoted (s : String) : Spells (quoted s).toList [.string (some s)] := by
  intro rest _
  have hquoted : (quoted s).toList ++ rest = '"' :: (s.toList.flatMap escaped ++ '"' :: rest) := by
    simp [quoted]
  rw [hquoted, tokens?_quote (splitQuoted?_flatMap_escaped s.toList rest),
    decode?_flatMap_escaped]
  rfl

/-- A word character is neither a blank nor a quote nor a mark. -/
theorem not_special_of_isWordChar (h : isWordChar c = true) :
    isBlank c = false ∧ c ≠ '"' ∧ punctuation? c = none := by
  refine ⟨?_, ?_, ?_⟩
  · rw [Bool.eq_false_iff]
    intro hblank
    simp only [isBlank, Bool.or_eq_true, beq_iff_eq] at hblank
    rcases hblank with ((rfl | rfl) | rfl) | rfl <;> exact absurd h (by decide)
  · rintro rfl
    exact absurd h (by decide)
  · unfold punctuation?
    split <;> first | rfl | exact absurd h (by decide)

theorem spells_word (htoken : word? cs = some token) (hword : IsWord cs) :
    Spells cs [token] := by
  intro rest hrest
  cases cs with
  | nil => exact absurd htoken nofun
  | cons c cs =>
    obtain ⟨hc, hcs⟩ := List.forall_mem_cons.1 hword
    obtain ⟨hblank, hquote, hmark⟩ := not_special_of_isWordChar hc
    obtain ⟨htake, hdrop⟩ := span_append_of_word hcs hrest
    rw [List.cons_append, tokens?]
    simp [hblank, hquote, hmark, htake, hdrop, htoken, bind_some_cons]

theorem isWordChar_of_isDigit (h : c.isDigit = true) : isWordChar c = true := by
  simp [isWordChar, Char.isAlphanum, h]

theorem isWord_of_afterDigits? (h : afterDigits? cs = some rest) (hrest : IsWord rest) :
    IsWord cs := by
  cases cs with
  | nil => cases h
  | cons c cs =>
    simp only [afterDigits?, Option.ite_none_right_eq_some, Option.some.injEq] at h
    obtain ⟨hc, rfl⟩ := h
    refine List.forall_mem_cons.2 ⟨isWordChar_of_isDigit hc, ?_⟩
    -- More digits are passed over up to `rest`, whose characters are word characters too.
    intro d hd
    rw [← List.takeWhile_append_dropWhile (p := Char.isDigit) (l := cs), List.mem_append] at hd
    rcases hd with hd | hd
    · exact isWordChar_of_isDigit (List.all_eq_true.mp List.all_takeWhile d hd)
    · exact hrest d hd

theorem isWord_of_afterInteger? (h : afterInteger? cs = some rest) (hrest : IsWord rest) :
    IsWord cs := by
  unfold afterInteger? at h
  split at h
  · obtain rfl := Option.some.inj h
    exact List.forall_mem_cons.2 ⟨by decide, hrest⟩
  · exact isWord_of_afterDigits? h hrest
  · cases h

theorem isWord_of_afterFraction? (h : afterFraction? cs = some rest) (hrest : IsWord rest) :
    IsWord cs := by
  unfold afterFraction? at h
  split at h
  · exact List.forall_mem_cons.2 ⟨by decide, isWord_of_afterDigits? h hrest⟩
  · obtain rfl := Option.some.inj h
    exact hrest

theorem isWord_of_afterExponent? (h : afterExponent? cs = some rest) (hrest : IsWord rest) :
    IsWord cs := by
  unfold afterExponent? at h
  split at h
  · next c cs =>
    split at h
    · next hc =>
      have hword : isWordChar c = true := by
        rcases hc with rfl | rfl <;> decide
      refine List.forall_mem_cons.2 ⟨hword, ?_⟩
      split at h
      · exact List.forall_mem_cons.2 ⟨by decide, isWord_of_afterDigits? h hrest⟩
      · exact List.forall_mem_cons.2 ⟨by decide, isWord_of_afterDigits? h hrest⟩
      · exact isWord_of_afterDigits? h hrest
    · obtain rfl := Option.some.inj h
      exact hrest
  · nofun

/-- A number is made of word characters. -/
theorem isWord_of_isNumber {word : List Char} (h : isNumber word = true) : IsWord word := by
  have hparts : ∀ {cs : List Char},
      (afterInteger? cs >>= afterFraction? >>= afterExponent?) = some [] → IsWord cs := by
    intro cs hcs
    simp only [Option.bind_eq_bind, Option.bind_eq_some_iff] at hcs
    obtain ⟨fraction, ⟨integer, hinteger, hfraction⟩, hexponent⟩ := hcs
    have hexponent := isWord_of_afterExponent? hexponent nofun
    exact isWord_of_afterInteger? hinteger (isWord_of_afterFraction? hfraction hexponent)
  unfold isNumber at h
  rw [beq_iff_eq] at h
  split at h
  · exact List.forall_mem_cons.2 ⟨by decide, hparts h⟩
  · exact hparts h

theorem spells_number {spelling : String} (h : isNumber spelling.toList = true) :
    Spells spelling.toList [.number spelling] := by
  have hne : ∀ word, isNumber word = false → spelling.toList ≠ word := by
    intro word hword heq
    rw [heq, hword] at h
    cases h
  refine spells_word ?_ (isWord_of_isNumber h)
  rw [word?, if_neg (hne _ (by decide)), if_neg (hne _ (by decide)), if_neg (hne _ (by decide)),
    if_pos h, String.ofList_toList]

end Subsumption.Json
