import Subsumption.Json.Token
/-!
Quoted strings are read back.  What is written for one character is cut out and
decoded as a whole, so a string is cut at its closing quote and decoded to its
characters.
-/

namespace Subsumption.Json

/-- A character that stands for itself between quotes. -/
structure Plain (c : Char) : Prop where
  ne_quote : c ≠ '"'
  ne_backslash : c ≠ '\\'
  not_control : ¬ c.toNat < 0x20

theorem plain_hexDigit : ∀ n < 16, Plain (hexDigit n) := by
  have hdigits : ∀ n < 16, hexDigit n ≠ '"' ∧ hexDigit n ≠ '\\' ∧ ¬ (hexDigit n).toNat < 0x20 := by
    decide
  intro n hn
  obtain ⟨hquote, hbackslash, hcontrol⟩ := hdigits n hn
  exact ⟨hquote, hbackslash, hcontrol⟩

theorem hexValue?_hexDigit : ∀ n < 16, hexValue? (hexDigit n) = some n := by
  decide

/-- The digits written for a control character name its code point. -/
theorem hexNumber?_hexDigits {n : Nat} (hn : n < 0x20) :
    hexNumber? ['0', '0', hexDigit (n / 16), hexDigit (n % 16)] = some n := by
  have hhigh : hexValue? (hexDigit (n / 16)) = some (n / 16) := hexValue?_hexDigit _ (by omega)
  have hlow : hexValue? (hexDigit (n % 16)) = some (n % 16) := hexValue?_hexDigit _ (by omega)
  have hzero : hexValue? '0' = some 0 := by decide
  have hsum : 16 * (n / 16) + n % 16 = n := by omega
  simp [hexNumber?, hhigh, hlow, hzero, hsum]

/-- The three ways in which a character is written between quotes. -/
inductive Escape (c : Char) : List Char → Prop
  | short {name : Char} : escapedBy? name = some c → Escape c ['\\', name]
  | hex : c.toNat < 0x20 →
      Escape c ['\\', 'u', '0', '0', hexDigit (c.toNat / 16), hexDigit (c.toNat % 16)]
  | plain : Plain c → Escape c [c]

theorem escape_escaped (c : Char) : Escape c (escaped c) := by
  unfold escaped
  split
  case h_8 hquote hbackslash _ _ _ _ _ =>
    split
    · next hcontrol => exact .hex hcontrol
    · next hcontrol => exact .plain ⟨hquote, hbackslash, hcontrol⟩
  all_goals exact .short rfl

theorem splitQuoted?_plain {c : Char} (h : Plain c) (cs : List Char) :
    splitQuoted? (c :: cs) = (splitQuoted? cs).map fun (raw, after) => (c :: raw, after) := by
  rw [splitQuoted?, if_neg h.not_control]
  · exact h.ne_quote
  · intro _ _ hc _
    exact h.ne_backslash hc

/-- What is written for a character is never cut apart, and holds no closing
quote. -/
theorem splitQuoted?_escape {c : Char} {written : List Char} (h : Escape c written)
    (cs : List Char) :
    splitQuoted? (written ++ cs) =
      (splitQuoted? cs).map fun (raw, after) => (written ++ raw, after) := by
  cases h with
  | short hname => rfl
  | hex hcontrol =>
    have hzero : Plain '0' := plain_hexDigit 0 (by omega)
    have hhigh := plain_hexDigit (c.toNat / 16) (by omega)
    have hlow := plain_hexDigit (c.toNat % 16) (by omega)
    simp [splitQuoted?, splitQuoted?_plain hzero, splitQuoted?_plain hhigh,
      splitQuoted?_plain hlow, Function.comp_def]
  | plain hplain => exact splitQuoted?_plain hplain cs

theorem splitQuoted?_flatMap_escaped (cs rest : List Char) :
    splitQuoted? (cs.flatMap escaped ++ '"' :: rest) = some (cs.flatMap escaped, rest) := by
  induction cs with
  | nil => rfl
  | cons c cs ih =>
    rw [List.flatMap_cons, List.append_assoc, splitQuoted?_escape (escape_escaped c), ih]
    rfl

/-- An item put before a list that may fail to be read. -/
theorem bind_some_cons {α : Type} (a : α) (read : Option (List α)) :
    (read.bind fun l => some (a :: l)) = read.map (a :: ·) :=
  Option.map_eq_bind.symm

/-- What is written for a character decodes to its code point. -/
theorem codePoints?_escape {c : Char} {written : List Char} (h : Escape c written)
    (cs : List Char) :
    codePoints? (written ++ cs) = (codePoints? cs).map (c.toNat :: ·) := by
  cases h with
  | @short name hname =>
    have hu : name ≠ 'u' := by
      rintro rfl
      cases hname
    have hcons : codePoints? ('\\' :: name :: cs) =
        (escapedBy? name).bind fun c => (codePoints? cs).map (c.toNat :: ·) := by
      simp [codePoints?, hu, bind_some_cons]
    simp [hcons, hname]
  | hex hcontrol =>
    simp [codePoints?, hexNumber?_hexDigits hcontrol, bind_some_cons]
  | plain hplain =>
    have hbackslash := hplain.ne_backslash
    simp [codePoints?, hbackslash]

theorem codePoints?_flatMap_escaped (cs : List Char) :
    codePoints? (cs.flatMap escaped) = some (cs.map Char.toNat) := by
  induction cs with
  | nil => rfl
  | cons c cs ih =>
    rw [List.flatMap_cons, codePoints?_escape (escape_escaped c), ih]
    rfl

/-- No character is half of a surrogate pair. -/
theorem not_surrogate (c : Char) :
    isHighSurrogate c.toNat = false ∧ isLowSurrogate c.toNat = false := by
  have hvalid : c.toNat < 0xD800 ∨ 0xDFFF < c.toNat ∧ c.toNat < 0x110000 := c.valid
  simp only [isHighSurrogate, isLowSurrogate, Bool.and_eq_false_iff, decide_eq_false_iff_not]
  omega

theorem joinSurrogates?_map_toNat (cs : List Char) :
    joinSurrogates? (cs.map Char.toNat) = some cs := by
  induction cs with
  | nil => rfl
  | cons c cs ih =>
    obtain ⟨hhigh, hlow⟩ := not_surrogate c
    cases cs with
    | nil => simp [joinSurrogates?, hhigh, hlow]
    | cons d cs =>
      rw [List.map_cons] at ih
      simp [joinSurrogates?, hhigh, hlow, ih]

/-- A string is decoded to the characters that it was written for. -/
theorem decode?_flatMap_escaped (s : String) :
    decode? (s.toList.flatMap escaped) = some (some s) := by
  rw [decode?, codePoints?_flatMap_escaped]
  simp [joinSurrogates?_map_toNat]

end Subsumption.Json
