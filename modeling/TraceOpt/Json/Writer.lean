import TraceOpt.Json.Basic

/-!
# Writing JSON

A value is written on one line without blanks, or spread over lines with an indent of two blanks
per level.  Empty containers take no extra lines.
-/

namespace TraceOpt

namespace Json

/-- Where blanks go in a written value. -/
structure Layout where
  /-- What stands before an element or a closing bracket at a depth. -/
  lineBreak : Nat → String
  /-- What stands after the colon of a member. -/
  afterColon : String

/-- Everything on one line, without blanks. -/
def Layout.compact : Layout := ⟨fun _ => "", ""⟩

/-- One element per line, indented by two blanks per level. -/
def Layout.pretty : Layout :=
  ⟨fun depth => "\n" ++ String.ofList (List.replicate (2 * depth) ' '), " "⟩

/-- A character within a string. -/
def escaped (c : Char) : List Char :=
  match c with
  | '"' => ['\\', '"']
  | '\\' => ['\\', '\\']
  | '\x08' => ['\\', 'b']
  | '\x0c' => ['\\', 'f']
  | '\n' => ['\\', 'n']
  | '\r' => ['\\', 'r']
  | '\t' => ['\\', 't']
  | c =>
    if c.toNat < 0x20 then
      ['\\', 'u', '0', '0', Nat.digitChar (c.toNat / 16), Nat.digitChar (c.toNat % 16)]
    else [c]

/-- A string in quotes; one without text is written as an unpaired surrogate. -/
def quoted : Option String → String
  | some s => "\"" ++ String.ofList (s.toList.flatMap escaped) ++ "\""
  | none => "\"\\ud800\""

/-- A container at a depth, from its brackets and what it holds. -/
def enclosed (l : Layout) (depth : Nat) (opening closing : String) : List String → String
  | [] => opening ++ closing
  | parts =>
    opening ++ l.lineBreak (depth + 1) ++ ("," ++ l.lineBreak (depth + 1)).intercalate parts
      ++ l.lineBreak depth ++ closing

mutual

/-- A value at a depth. -/
def write (l : Layout) (depth : Nat) : Json → String
  | null => "null"
  | bool b => if b then "true" else "false"
  | integer n => n.repr
  | real spelling => spelling
  | string s => quoted s
  | array es => enclosed l depth "[" "]" (writeElements l (depth + 1) es)
  | object ms => enclosed l depth "\x7b" "\x7d" (writeMembers l (depth + 1) ms)

/-- The elements of an array at a depth. -/
def writeElements (l : Layout) (depth : Nat) : List Json → List String
  | [] => []
  | j :: rest => write l depth j :: writeElements l depth rest

/-- The members of an object at a depth. -/
def writeMembers (l : Layout) (depth : Nat) : List (Option String × Json) → List String
  | [] => []
  | (k, j) :: rest =>
    (quoted k ++ ":" ++ l.afterColon ++ write l depth j) :: writeMembers l depth rest

end

/-- A value on one line. -/
def compact (j : Json) : String := write .compact 0 j

/-- A value spread over lines. -/
def pretty (j : Json) : String := write .pretty 0 j

end Json

end TraceOpt
