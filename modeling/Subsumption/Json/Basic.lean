/-!
JSON values and their compact text.

Numbers keep their spelling, and objects keep every member in its order, so a
reader can tell a repeated key from a single one.
-/

namespace Subsumption

/-- The content of a JSON string.  It is `none` for a string that is well
formed yet denotes no text, because an escape names half of a surrogate pair
without the other half beside it. -/
abbrev Json.Text := Option String

inductive Json where
  | null
  | bool (value : Bool)
  | number (spelling : String)
  | string (text : Json.Text)
  | array (items : List Json)
  | object (members : List (Json.Text × Json))
deriving Repr

namespace Json

instance : Inhabited Json := ⟨null⟩

def ofString (s : String) : Json := string (some s)

def ofStrings (texts : List String) : Json := array (texts.map ofString)

def ofMembers (members : List (String × Json)) : Json :=
  object (members.map fun m => (some m.1, m.2))

def ofInt (n : Int) : Json := number n.repr

/-- The hexadecimal digit of a number below sixteen, in lower case. -/
def hexDigit (n : Nat) : Char := Char.ofNat (if n < 10 then 0x30 + n else 0x57 + n)

/-- How a character is written between quotes.  Quotes, backslashes and the
control characters below U+0020 are escaped, and nothing else is. -/
def escaped (c : Char) : List Char :=
  match c with
  | '"' => ['\\', '"']
  | '\\' => ['\\', '\\']
  | '\x08' => ['\\', 'b']
  | '\t' => ['\\', 't']
  | '\n' => ['\\', 'n']
  | '\x0c' => ['\\', 'f']
  | '\r' => ['\\', 'r']
  | c =>
    if c.toNat < 0x20 then ['\\', 'u', '0', '0', hexDigit (c.toNat / 16), hexDigit (c.toNat % 16)]
    else [c]

def quoted (s : String) : String :=
  "\"" ++ String.ofList (s.toList.flatMap escaped) ++ "\""

/-- A string that denotes no text is written as the replacement character. -/
def Text.compact (t : Text) : String := quoted (t.getD "\ufffd")

/-- The value as text without any blanks. -/
def compact : Json → String
  | null => "null"
  | bool true => "true"
  | bool false => "false"
  | number spelling => spelling
  | string text => text.compact
  | array items => "[" ++ ",".intercalate (items.map compact) ++ "]"
  | object members =>
    "\x7b" ++ ",".intercalate (members.map fun m => m.1.compact ++ ":" ++ m.2.compact) ++ "\x7d"
decreasing_by
  · have hlt := List.sizeOf_lt_of_mem ‹_›
    simp only [array.sizeOf_spec]
    omega
  · have hlt := List.sizeOf_lt_of_mem ‹m ∈ members›
    have hsnd : sizeOf m.2 < sizeOf m := by
      cases m
      simp only [Prod.mk.sizeOf_spec]
      omega
    simp only [object.sizeOf_spec]
    omega

example : quoted "a\"b\\\n\x01é" = "\"a\\\"b\\\\\\n\\u0001é\"" := by decide

end Json

end Subsumption
