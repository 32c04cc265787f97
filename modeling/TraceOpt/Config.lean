import TraceOpt.Optimization
import TraceOpt.Toml.Reader

/-!
# Configuration

Which stages to run, from a TOML document such as

    opt_level = "release"
    passes = ["constant_fold", "virtualize"]
    verbose = true

An explicit list of stages goes before the level.  Unknown keys and values of the wrong form make
a document invalid.
-/

namespace TraceOpt

/-- What to run and how much to say about it. -/
structure Config where
  /-- The level, whose stages run unless they are listed. -/
  level : Level := .release
  /-- An explicit list of stages. -/
  passes : Option (List Pass) := none
  /-- Whether to report the counters. -/
  verbose : Bool := false
  deriving DecidableEq

namespace Config

/-- The stages to run, in order. -/
def effectivePasses (c : Config) : List Pass := c.passes.getD c.level.passes

/-! ### Reading -/

/-- Whether a value is a table or array without content. -/
def isHollow : Toml → Bool
  | .array es => es.isEmpty
  | .inline es => es.isEmpty
  | .table _ es => es.isEmpty
  | .tables each => each.isEmpty
  | _ => false

/-- The name in a value that picks one of several names: a string, or the only key of a table,
where the key must have an empty table or array. -/
def name? : Toml → Option String
  | .string s => some s
  | .inline [(k, v)] | .table _ [(k, v)] => if isHollow v then some k else none
  | _ => none

/-- The level that a value names. -/
def level? (v : Toml) : Option Level := (name? v).bind Level.ofName?

/-- The stages that a list names. -/
def passes? : Toml → Option (List Pass)
  | .array es => es.mapM fun v => (name? v).bind Pass.ofName?
  | .tables each => each.mapM fun es => (name? (.table .header es)).bind Pass.ofName?
  | _ => none

/-- A truth value. -/
def boolean? : Toml → Option Bool
  | .boolean b => some b
  | _ => none

/-- The configuration with one key of a document taken into account. -/
def set? (c : Config) : String × Toml → Option Config
  | ("opt_level", v) => (level? v).map fun level => { c with level }
  | ("passes", v) => (passes? v).map fun passes => { c with passes := some passes }
  | ("verbose", v) => (boolean? v).map fun verbose => { c with verbose }
  | _ => none

/-- The configuration of a document; what it does not mention is as usual. -/
def parse? (s : String) : Option Config := do
  (← Toml.parse? s).foldlM set? {}

end Config

end TraceOpt
