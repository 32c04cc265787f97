import TraceOpt.Toml.Basic
import TraceOpt.Toml.Scalar
import TraceOpt.Toml.Text

/-!
# Reading TOML

`Toml.parse?` answers with the table of a document.  The document is read line by line; a line
opens a table, or adds a key with a value to the table opened last, or is blank up to a comment.
-/

namespace TraceOpt

namespace Toml

/-- A step that takes something off a text, or fails. -/
abbrev Scan := StateT (List Char) Option

namespace Scan

/-- Takes what a function finds at the start of the text. -/
def take {α : Type} (f : List Char → Option (α × List Char)) : Scan α := f

/-- Skips blanks. -/
def blanks : Scan Unit := modify (·.dropWhile Text.isBlank)

/-- Skips blanks, line breaks and comments. -/
def gap : Scan Unit := modify (Text.skipGap false)

/-- Takes a character if it is there, and says whether it was. -/
def accept (c : Char) : Scan Bool := fun cs =>
  match cs with
  | [] => some (false, [])
  | d :: rest => some (if c = d then (true, rest) else (false, d :: rest))

/-- Takes a character that must be there. -/
def expect (c : Char) : Scan Unit := do
  if !(← accept c) then failure

/-- Takes the rest of a line, on which only a comment may stand. -/
def lineEnd : Scan Unit := do
  blanks
  if ← accept '#' then modify (·.dropWhile Text.isPrintable)
  match ← get with
  | [] => pure ()
  | cs => set (← Text.newline? cs)

/-! ### Keys -/

/-- The characters of a key without quotes. -/
def isBare (c : Char) : Bool := c.isAlphanum || c = '-' || c = '_'

/-- One part of a key: without quotes, or a string on one line. -/
def simpleKey : Scan String := take fun
  | '"' :: rest => (Text.basic? .line false rest).map fun (s, rest) => (.ofList s, rest)
  | '\'' :: rest => (Text.literal? .line rest).map fun (s, rest) => (.ofList s, rest)
  | cs =>
    match cs.span isBare with
    | ([], _) => none
    | (s, rest) => some (.ofList s, rest)

/-- A key: its parts before the last one, and the last one. -/
def key : Nat → Scan (List String × String)
  | 0 => failure
  | n + 1 => do
    blanks
    let first ← simpleKey
    blanks
    if ← accept '.' then
      let (path, last) ← key n
      return (first :: path, last)
    return ([], first)

/-! ### Values -/

mutual

/-- A value. -/
def value : Nat → Scan Toml
  | 0 => failure
  | n + 1 => do
    match ← get with
    | '[' :: rest => set rest; return .array (← elements n)
    | '\x7b' :: rest =>
      set rest
      blanks
      if ← accept '\x7d' then return .inline []
      return .inline (← members n [])
    | 't' :: 'r' :: 'u' :: 'e' :: rest => set rest; return .boolean true
    | 'f' :: 'a' :: 'l' :: 's' :: 'e' :: rest => set rest; return .boolean false
    | '"' :: _ | '\'' :: _ => return .string (← take Text.string?)
    | _ => return .scalar (.ofList (← take Scalar.take?))

/-- The elements of an array up to its end; a comma may stand after the last one. -/
def elements : Nat → Scan (List Toml)
  | 0 => failure
  | n + 1 => do
    gap
    if ← accept ']' then return []
    let v ← value n
    gap
    if ← accept ',' then return v :: (← elements n)
    expect ']'
    return [v]

/-- The entries of an inline table up to its end, added to those before. -/
def members : Nat → Entries → Scan Entries
  | 0, _ => failure
  | n + 1, es => do
    let (path, last) ← key n
    expect '='
    blanks
    let v ← value n
    blanks
    let es ← insertAt path last v es
    if ← accept ',' then members n es
    else
      expect '\x7d'
      return es

end

/-! ### Documents -/

/-- The table of a document so far, and the path of the last header. -/
structure Draft where
  /-- The table of the document. -/
  root : Entries
  /-- The path of the table opened last. -/
  header : List String

/-- A line that begins with something other than a blank. -/
def line (fuel : Nat) (d : Draft) : Scan Draft := do
  match ← get with
  | '[' :: '[' :: rest =>
    set rest
    let (path, last) ← key fuel
    expect ']'
    expect ']'
    return ⟨← openTables path last d.root, path ++ [last]⟩
  | '[' :: rest =>
    set rest
    let (path, last) ← key fuel
    expect ']'
    return ⟨← openTable path last d.root, path ++ [last]⟩
  | '#' :: _ | '\n' :: _ | '\r' :: _ | [] => return d
  | _ =>
    let (path, last) ← key fuel
    expect '='
    blanks
    let v ← value fuel
    return { d with root := ← within d.header (insertAt path last v) d.root }

/-- All lines of a document. -/
def lines (fuel : Nat) : Nat → Draft → Scan Draft
  | 0, _ => failure
  | n + 1, d => do
    blanks
    let d ← line fuel d
    lineEnd
    if (← get).isEmpty then return d
    lines fuel n d

end Scan

/-- The table of a document.  A byte order mark at its start does not count.  The bound on
repetitions is not reached: of two steps one after another at least one takes a character. -/
def parse? (s : String) : Option Entries := do
  let cs := match s.toList with
    | '\ufeff' :: rest => rest
    | cs => cs
  let bound := 2 * cs.length + 2
  let (d, _) ← Scan.lines bound bound ⟨[], []⟩ cs
  return d.root

end Toml

end TraceOpt
