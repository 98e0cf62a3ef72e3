import Subsumption.Json.Basic
/-!
The tokens of JSON text.  A word is a maximal run of the characters that literals
and numbers are made of, so `truefalse` is no token.  A string is first cut out
between its quotes and then decoded.
-/

namespace Subsumption.Json

/-- A token: a punctuation mark, or a value without parts. -/
inductive Token where
  | openArray
  | closeArray
  | openObject
  | closeObject
  | comma
  | colon
  | null
  | bool (value : Bool)
  | number (spelling : String)
  | string (text : Text)
deriving DecidableEq, Repr

/-- What follows the integer part: a single zero, or digits that do not begin
with one. -/
def afterInteger? : List Char → Option (List Char)
  | '0' :: rest => some rest
  | c :: rest => if c.isDigit then some (rest.dropWhile Char.isDigit) else none
  | [] => none

/-- What follows one digit or more. -/
def afterDigits? : List Char → Option (List Char)
  | c :: rest => if c.isDigit then some (rest.dropWhile Char.isDigit) else none
  | [] => none

/-- What follows the fraction, if there is one. -/
def afterFraction? : List Char → Option (List Char)
  | '.' :: rest => afterDigits? rest
  | rest => some rest

/-- What follows the exponent, if there is one. -/
def afterExponent? : List Char → Option (List Char)
  | c :: rest =>
    if c = 'e' ∨ c = 'E' then
      match rest with
      | '+' :: digits => afterDigits? digits
      | '-' :: digits => afterDigits? digits
      | digits => afterDigits? digits
    else some (c :: rest)
  | [] => some []

/-- The characters spell a number: an integer part, perhaps negative, and
perhaps a fraction and an exponent. -/
def isNumber (word : List Char) : Bool :=
  let unsigned := match word with
    | '-' :: rest => rest
    | rest => rest
  (afterInteger? unsigned >>= afterFraction? >>= afterExponent?) == some []

def hexValue? (c : Char) : Option Nat :=
  if c.isDigit then some (c.toNat - 0x30)
  else if 'a' ≤ c ∧ c ≤ 'f' then some (c.toNat - 0x57)
  else if 'A' ≤ c ∧ c ≤ 'F' then some (c.toNat - 0x37)
  else none

def hexNumber? (digits : List Char) : Option Nat :=
  (digits.mapM hexValue?).map fun values => values.foldl (fun n d => 16 * n + d) 0

def escapedBy? : Char → Option Char
  | '"' => some '"'
  | '\\' => some '\\'
  | '/' => some '/'
  | 'b' => some '\x08'
  | 'f' => some '\x0c'
  | 'n' => some '\n'
  | 'r' => some '\r'
  | 't' => some '\t'
  | _ => none

/-- The code point of each character or escape of a string. -/
def codePoints? : List Char → Option (List Nat)
  | [] => some []
  | '\\' :: 'u' :: a :: b :: c :: d :: rest => do
    let point ← hexNumber? [a, b, c, d]
    let points ← codePoints? rest
    return point :: points
  | '\\' :: name :: rest => do
    let c ← escapedBy? name
    let points ← codePoints? rest
    return c.toNat :: points
  | c :: rest => if c = '\\' then none else (codePoints? rest).map (c.toNat :: ·)

/-- The first half of a surrogate pair. -/
def isHighSurrogate (n : Nat) : Bool := 0xD800 ≤ n && n < 0xDC00

/-- The second half of a surrogate pair. -/
def isLowSurrogate (n : Nat) : Bool := 0xDC00 ≤ n && n < 0xE000

/-- Joins each surrogate pair into the character it names.  Half a pair alone
names none. -/
def joinSurrogates? : List Nat → Option (List Char)
  | [] => some []
  | [n] => if isHighSurrogate n || isLowSurrogate n then none else some [Char.ofNat n]
  | n :: m :: rest =>
    if isHighSurrogate n then
      if isLowSurrogate m then
        (joinSurrogates? rest).map
          (Char.ofNat (0x10000 + (n - 0xD800) * 0x400 + (m - 0xDC00)) :: ·)
      else none
    else if isLowSurrogate n then none
    else (joinSurrogates? (m :: rest)).map (Char.ofNat n :: ·)

/-- The content of the string with the given characters between its quotes,
or `none` if some escape is no escape. -/
def decode? (raw : List Char) : Option Text :=
  (codePoints? raw).map fun points => (joinSurrogates? points).map String.ofList

/-- Cuts a string at its closing quote into the characters before and after.
Control characters may not stand in a string. -/
def splitQuoted? : List Char → Option (List Char × List Char)
  | [] => none
  | '"' :: rest => some ([], rest)
  | '\\' :: c :: rest => (splitQuoted? rest).map fun (raw, after) => ('\\' :: c :: raw, after)
  | c :: rest =>
    if c.toNat < 0x20 then none
    else (splitQuoted? rest).map fun (raw, after) => (c :: raw, after)

theorem length_lt_of_splitQuoted? {cs raw after : List Char}
    (h : splitQuoted? cs = some (raw, after)) : after.length < cs.length := by
  fun_induction splitQuoted? cs generalizing raw after with
  | case1 => cases h
  | case2 rest => cases h; simp
  | case3 c rest ih =>
    obtain ⟨⟨raw', after'⟩, hrest, heq⟩ := Option.map_eq_some_iff.mp h
    have hlt := ih hrest
    cases heq
    simp only [List.length_cons]
    omega
  | case4 => cases h
  | case5 c rest _ _ _ ih =>
    obtain ⟨⟨raw', after'⟩, hrest, heq⟩ := Option.map_eq_some_iff.mp h
    have hlt := ih hrest
    cases heq
    simp only [List.length_cons]
    omega

def punctuation? : Char → Option Token
  | '[' => some .openArray
  | ']' => some .closeArray
  | '\x7b' => some .openObject
  | '\x7d' => some .closeObject
  | ',' => some .comma
  | ':' => some .colon
  | _ => none

def isBlank (c : Char) : Bool := c == ' ' || c == '\t' || c == '\n' || c == '\r'

def isWordChar (c : Char) : Bool := c.isAlphanum || c == '+' || c == '-' || c == '.'

def word? (word : List Char) : Option Token :=
  if word = "null".toList then some .null
  else if word = "true".toList then some (.bool true)
  else if word = "false".toList then some (.bool false)
  else if isNumber word then some (.number (String.ofList word))
  else none

/-- The tokens of the text, or `none` if some part of it is no token. -/
def tokens? : List Char → Option (List Token)
  | [] => some []
  | c :: rest =>
    if isBlank c then tokens? rest
    else if c = '"' then
      match _h : splitQuoted? rest with
      | none => none
      | some (raw, after) => do
        let text ← decode? raw
        let tokens ← tokens? after
        return .string text :: tokens
    else match punctuation? c with
      | some mark => (tokens? rest).map (mark :: ·)
      | none => do
        let token ← word? (c :: rest.takeWhile isWordChar)
        let tokens ← tokens? (rest.dropWhile isWordChar)
        return token :: tokens
termination_by cs => cs.length
decreasing_by
  · simp
  · have hlt := length_lt_of_splitQuoted? _h
    simp only [List.length_cons]
    omega
  · simp
  · have hle := (List.dropWhile_suffix isWordChar (l := rest)).length_le
    simp only [List.length_cons]
    omega

example : isNumber "-0.5e+3".toList = true := by decide

example : ["01", "1.", ".5", "1e", "+1", "-", "--1"].all fun s => !isNumber s.toList := by decide

example : decode? "\\ud83d\\ude00".toList = some (some "😀") := by decide

example : decode? "\\ud83d".toList = some none := by decide

end Subsumption.Json
