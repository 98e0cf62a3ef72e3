import Subsumption.Json.Token
/-!
Reading JSON text.

The tokens are consumed from left to right by a machine whose state is what
may come next, together with the arrays and objects that are still open.  So
values may be nested to any depth.
-/

namespace Subsumption.Json

/-- An array or object that is still open, with what was read before the value
that is being read now, latest first. -/
inductive Frame where
  | item (before : List Json)
  | member (before : List (Text × Json)) (key : Text)
deriving Repr

/-- What has been read, and what may come next. -/
inductive Reading where
  /-- A value must begin. -/
  | value (outer : List Frame)
  /-- An array was just opened: it ends, or its first item begins. -/
  | firstItem (outer : List Frame)
  /-- An object was just opened: it ends, or its first key follows. -/
  | firstKey (outer : List Frame)
  /-- A key must follow. -/
  | key (before : List (Text × Json)) (outer : List Frame)
  /-- The colon after a key must follow. -/
  | colon (before : List (Text × Json)) (key : Text) (outer : List Frame)
  /-- A value is complete. -/
  | complete (value : Json) (outer : List Frame)
deriving Repr

namespace Reading

/-- Begins a value with a token. -/
def begin (outer : List Frame) : Token → Option Reading
  | .openArray => some (firstItem outer)
  | .openObject => some (firstKey outer)
  | .null => some (complete .null outer)
  | .bool b => some (complete (.bool b) outer)
  | .number spelling => some (complete (.number spelling) outer)
  | .string text => some (complete (.string text) outer)
  | _ => none

def step : Reading → Token → Option Reading
  | value outer, token => begin outer token
  | firstItem outer, .closeArray => some (complete (.array []) outer)
  | firstItem outer, token => begin (.item [] :: outer) token
  | firstKey outer, .closeObject => some (complete (.object []) outer)
  | firstKey outer, .string text => some (colon [] text outer)
  | key before outer, .string text => some (colon before text outer)
  | colon before text outer, .colon => some (value (.member before text :: outer))
  | complete v (.item before :: outer), .comma => some (value (.item (v :: before) :: outer))
  | complete v (.item before :: outer), .closeArray =>
    some (complete (.array (v :: before).reverse) outer)
  | complete v (.member before text :: outer), .comma => some (key ((text, v) :: before) outer)
  | complete v (.member before text :: outer), .closeObject =>
    some (complete (.object ((text, v) :: before).reverse) outer)
  | _, _ => none

/-- The value, once it is complete and nothing is open. -/
def result? : Reading → Option Json
  | complete v [] => some v
  | _ => none

end Reading

def ofTokens? (tokens : List Token) : Option Json :=
  tokens.foldlM Reading.step (.value []) >>= Reading.result?

/-- The value that the text spells, with blanks allowed around each token. -/
def read? (text : String) : Option Json :=
  tokens? text.toList >>= ofTokens?

def text? : Json → Option String
  | string text => text
  | _ => none

def items? : Json → Option (List Json)
  | array items => some items
  | _ => none

def texts? (json : Json) : Option (List String) := do
  (← json.items?).mapM text?

/-- The values of the members with the given key. -/
def valuesOf (members : List (Text × Json)) (key : String) : List Json :=
  (members.filter fun m => m.1 == some key).map (·.2)

example : ofTokens? [.openArray, .null, .comma, .closeArray] |>.isNone := by decide

end Subsumption.Json
