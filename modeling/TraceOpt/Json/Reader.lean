import TraceOpt.Json.Token

/-!
# Reading JSON

One pass over the tokens with the containers that are still open on a stack, so that nesting has
no limit.  `Json.parse?` answers with the value of a text, and refuses a text that is not exactly
one value.
-/

namespace TraceOpt

namespace Json

/-- A container that is still open, with what it holds so far, last first. -/
inductive Frame where
  | array (before : List Json)
  /-- An object, and the name of the member whose value is being read. -/
  | object (before : List (Option String × Json)) (name : Option String)

/-- What has been read so far. -/
inductive Progress where
  /-- A value comes next. -/
  | value (outer : List Frame)
  /-- An array was opened: an element or its end comes next. -/
  | arrayOpened (outer : List Frame)
  /-- An object was opened: a member or its end comes next. -/
  | objectOpened (outer : List Frame)
  /-- Another member comes next. -/
  | member (before : List (Option String × Json)) (outer : List Frame)
  /-- A member's name was read: a colon comes next. -/
  | named (before : List (Option String × Json)) (name : Option String) (outer : List Frame)
  /-- A value was read. -/
  | complete (j : Json) (outer : List Frame)

namespace Progress

/-- Reads the first token of a value. -/
def begin (outer : List Frame) : Token → Option Progress
  | .scalar j => some (complete j outer)
  | .string s => some (complete (.string s) outer)
  | .openBracket => some (arrayOpened outer)
  | .openBrace => some (objectOpened outer)
  | _ => none

/-- Reads one token. -/
def step : Progress → Token → Option Progress
  | value outer, t => begin outer t
  | arrayOpened outer, .closeBracket => some (complete (.array []) outer)
  | arrayOpened outer, t => begin (.array [] :: outer) t
  | objectOpened outer, .closeBrace => some (complete (.object []) outer)
  | objectOpened outer, .string k => some (named [] k outer)
  | member before outer, .string k => some (named before k outer)
  | named before k outer, .colon => some (value (.object before k :: outer))
  | complete j (.array before :: outer), .comma => some (value (.array (j :: before) :: outer))
  | complete j (.array before :: outer), .closeBracket =>
    some (complete (.array (j :: before).reverse) outer)
  | complete j (.object before k :: outer), .comma => some (member ((k, j) :: before) outer)
  | complete j (.object before k :: outer), .closeBrace =>
    some (complete (.object ((k, j) :: before).reverse) outer)
  | _, _ => none

/-- The value read, if nothing is open. -/
def result? : Progress → Option Json
  | complete j [] => some j
  | _ => none

end Progress

/-- The value that tokens spell. -/
def ofTokens? (ts : List Token) : Option Json := do
  (← ts.foldlM Progress.step (.value [])).result?

/-- The value of a JSON text. -/
def parse? (s : String) : Option Json := do
  ofTokens? (← Token.ofText? s.toList)

end Json

end TraceOpt
