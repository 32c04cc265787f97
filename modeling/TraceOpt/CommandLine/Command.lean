import TraceOpt.CommandLine.Arguments
import TraceOpt.Config
import TraceOpt.Trace.Document
import TraceOpt.Trace.Hash

/-!
# Commands

What the command line can be asked to do, and what it answers.  `Command.parse?` reads the
arguments; `Command.run` does the work on the texts of files, which it gets from a look-up.

    optimize <file> [-l|--level LEVEL] [-c|--config FILE] [--json] [-v|--verbose]
    show <file>
-/

namespace TraceOpt

namespace CommandLine

/-- A request. -/
inductive Command where
  /-- Say which program this is. -/
  | version
  /-- Optimize the trace in a file. -/
  | optimize (file : String) (level : Option Level) (config : Option String) (json verbose : Bool)
  /-- Print the trace in a file as text. -/
  | display (file : String)

/-- Why a request is not fulfilled. -/
inductive Failure where
  /-- The arguments make no request. -/
  | badUsage
  /-- A file cannot be read. -/
  | unreadable (path : String)
  /-- A file holds no configuration. -/
  | badConfig (path : String)
  /-- A file holds no trace. -/
  | badTrace (path : String)
  /-- The trace cannot be optimized. -/
  | fault (f : Fault)

namespace Failure

/-- The exit code of a failure. -/
def exitCode : Failure → UInt8
  | badUsage => 2
  | fault .overflow => 101
  | _ => 1

/-- The wording of a failure. -/
def message : Failure → String
  | badUsage =>
    "usage: tracejit optimize <file> [-l LEVEL] [-c FILE] [--json] [-v] | tracejit show <file>"
  | unreadable path => "Error: cannot read " ++ path
  | badConfig path => "Error: invalid pipeline configuration in " ++ path
  | badTrace path => "Error: no trace in " ++ path
  | fault f => "Error: " ++ f.message

end Failure

/-- The answer to a request. -/
structure Answer where
  /-- The log, as far as it is asked for. -/
  log : List Event
  /-- The text for standard output and the text for standard error, or the failure. -/
  result : Except Failure (String × String)

namespace Command

/-! ### Reading the request -/

/-- The options of `optimize`. -/
def optimizeSpecs : List OptionSpec :=
  [ ⟨"level", some 'l', true⟩,
    ⟨"config", some 'c', true⟩,
    ⟨"json", none, false⟩,
    ⟨"verbose", some 'v', false⟩ ]

/-- The path that a text names; an empty text names none. -/
def path? (s : String) : Option String := if s.isEmpty then none else some s

/-- The only positional argument, as a path. -/
def file? (items : List Item) : Option String :=
  match positionals items with
  | [file] => path? file
  | _ => none

/-- The arguments of `optimize`. -/
def parseOptimize? (args : List String) : Option Command := do
  let items ← items? optimizeSpecs none args
  let file ← file? items
  let level ← (← valueOf? "level" items).mapM Level.ofName?
  let config ← (← valueOf? "config" items).mapM path?
  let json ← flagOf? "json" items
  let verbose ← flagOf? "verbose" items
  return optimize file level config json verbose

/-- The request that arguments make.  A version option is answered at once, whatever follows. -/
def parse? : List String → Option Command
  | [] => none
  | arg :: rest =>
    if arg = "--version" then some version
    else
      match arg.toList with
      | '-' :: 'V' :: _ => some version
      | _ =>
        if arg = "optimize" then parseOptimize? rest
        else if arg = "show" then do
          let items ← items? [] none rest
          return display (← file? items)
        else none

/-- The files that a request may read. -/
def files : Command → List String
  | version => []
  | optimize file _ config _ _ => config.toList ++ [file]
  | display file => [file]

/-! ### Fulfilling the request -/

section Run

variable (read : String → Option String)

/-- The trace in a file. -/
def loadTrace (path : String) : Except Failure Trace :=
  match read path with
  | none => .error (.unreadable path)
  | some text =>
    match Trace.parse? text with
    | none => .error (.badTrace path)
    | some t => .ok t

/-- The configuration in a file; without a file it is the usual one. -/
def loadConfig : Option String → Except Failure Config
  | none => .ok {}
  | some path =>
    match read path with
    | none => .error (.unreadable path)
    | some text =>
      match Config.parse? text with
      | none => .error (.badConfig path)
      | some c => .ok c

/-- The configuration and the trace to work on.  The configuration is read first, and the options
go before what it says. -/
def load (file : String) (level : Option Level) (config : Option String) (verbose : Bool) :
    Except Failure (Config × Trace) := do
  let c ← loadConfig read config
  let t ← loadTrace read file
  return ({ c with level := level.getD c.level, verbose := c.verbose || verbose }, t)

/-- Fulfils a request. -/
def run : Command → Answer
  | version => ⟨[], .ok ("tracejit 0.1.0\n", "")⟩
  | display file =>
    ⟨[], do
      let t ← loadTrace read file
      return ("; " ++ t.inputs.toNat.repr ++ " input(s), " ++ t.ops.length.repr
        ++ " operation(s)\n" ++ t.text ++ "\n", "")⟩
  | optimize file level config json verbose =>
    match load read file level config verbose with
    | .error e => ⟨[], .error e⟩
    | .ok (c, t) =>
      let report := optimizeWith c.effectivePasses t
      let log := if c.verbose then report.log.toList.filter (·.detail = .debug) else []
      match report.result with
      | .error f => ⟨log, .error (.fault f)⟩
      | .ok (t, tally) =>
        let out := if json then t.toJson.pretty else t.text
        ⟨log, .ok (out ++ "\n", if c.verbose then tally.text ++ "\n" else "")⟩

end Run

end Command

end CommandLine

end TraceOpt
