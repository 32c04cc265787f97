/-!
# Options among arguments

How a list of arguments splits into options and positional arguments.  An option has a long name
and perhaps a letter; letters may be grouped after one dash.  The value of an option is attached
to it (`--name=value`, `-nvalue`, `-n=value`) or is the next argument, which then does not begin
with a dash.  After `--` all arguments are positional, and a dash alone is positional too.
-/

namespace TraceOpt

namespace CommandLine

/-- An option that is understood. -/
structure OptionSpec where
  /-- The name after two dashes. -/
  long : String
  /-- The letter after one dash. -/
  short : Option Char
  /-- Whether the option has a value. -/
  takesValue : Bool

/-- What an argument was found to be. -/
inductive Item where
  /-- An option without a value, by its long name. -/
  | flag (name : String)
  /-- An option with its value. -/
  | value (name text : String)
  | positional (text : String)

/-- The items so far, and an option that still waits for its value. -/
abbrev Group := List Item × Option String

/-- Reads an argument after its two dashes. -/
def readLong (specs : List OptionSpec) (cs : List Char) : Option Group :=
  let (name, attached) := cs.span (· ≠ '=')
  match specs.find? (·.long == String.ofList name) with
  | none => none
  | some spec =>
    match spec.takesValue, attached with
    | true, [] => some ([], some spec.long)
    | true, _ :: text => some ([.value spec.long (.ofList text)], none)
    | false, [] => some ([.flag spec.long], none)
    | false, _ => none

/-- Reads the letters of an argument after its dash. -/
def readShort (specs : List OptionSpec) : List Char → Option Group
  | [] => some ([], none)
  | c :: cs =>
    match specs.find? (·.short == some c) with
    | none => none
    | some spec =>
      if spec.takesValue then
        match cs with
        | [] => some ([], some spec.long)
        | '=' :: text => some ([.value spec.long (.ofList text)], none)
        | text => some ([.value spec.long (.ofList text)], none)
      else (readShort specs cs).map fun (items, waiting) => (.flag spec.long :: items, waiting)

/-- Splits arguments into items, given the option that waits for its value.  `none` if an option
is unknown, lacks its value or has one that it does not take. -/
def items? (specs : List OptionSpec) : (waiting : Option String) → List String → Option (List Item)
  | none, [] => some []
  | some _, [] => none
  | waiting, arg :: rest =>
    match arg.toList, waiting with
    | ['-', '-'], none => some (rest.map .positional)
    | '-' :: '-' :: cs, none => follow (readLong specs cs) (items? specs · rest)
    | '-' :: c :: cs, none => follow (readShort specs (c :: cs)) (items? specs · rest)
    | '-' :: _ :: _, some _ => none
    | _, some name => (items? specs none rest).map (.value name arg :: ·)
    | _, none => (items? specs none rest).map (.positional arg :: ·)
where
  /-- Goes on after an argument with options. -/
  follow (group : Option Group) (next : Option String → Option (List Item)) :
      Option (List Item) := do
    let (items, waiting) ← group
    return items ++ (← next waiting)

/-! ### Picking items -/

/-- The only element of a list that has at most one. -/
def atMostOne? {α : Type} : List α → Option (Option α)
  | [] => some none
  | [a] => some (some a)
  | _ => none

/-- Whether a flag is given; giving it twice is an error. -/
def flagOf? (name : String) (items : List Item) : Option Bool :=
  (atMostOne? (items.filterMap fun
    | .flag n => if n == name then some () else none
    | _ => none)).map (·.isSome)

/-- The value of an option, if it is given; giving it twice is an error. -/
def valueOf? (name : String) (items : List Item) : Option (Option String) :=
  atMostOne? (items.filterMap fun
    | .value n text => if n == name then some text else none
    | _ => none)

/-- The positional arguments. -/
def positionals (items : List Item) : List String :=
  items.filterMap fun
    | .positional text => some text
    | _ => none

end CommandLine

end TraceOpt
