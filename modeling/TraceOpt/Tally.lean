/-!
# Counting what an optimization does

A tally counts the operations that went in and came out, what became of those that did not come
out, and the operations that each stage saw, by the name of the stage.
-/

namespace TraceOpt

/-- The counters of an optimization. -/
structure Tally where
  /-- Operations fed to the first stage. -/
  opsIn : Nat := 0
  /-- Operations in the output. -/
  opsOut : Nat := 0
  /-- Operations replaced by their constant result. -/
  folded : Nat := 0
  /-- Guards dropped because they always pass. -/
  guardsElided : Nat := 0
  /-- Guards left in the output. -/
  guardsKept : Nat := 0
  /-- Allocations put off. -/
  virtualsCreated : Nat := 0
  /-- Allocations put off and then made. -/
  virtualsForced : Nat := 0
  /-- Field writes recorded on objects not yet allocated. -/
  setfieldsAbsorbed : Nat := 0
  /-- Operations seen by each stage, by name in ascending order. -/
  stageCounts : List (String × Nat) := []
  deriving DecidableEq

namespace Tally

/-- Adds one to the count of a name in a list kept in ascending order of names. -/
def bump (name : String) : List (String × Nat) → List (String × Nat)
  | [] => [(name, 1)]
  | (n, c) :: rest =>
    if name = n then (n, c + 1) :: rest
    else if name < n then (name, 1) :: (n, c) :: rest
    else (n, c) :: bump name rest

/-- Counts one more operation seen by a stage. -/
def record (t : Tally) (stage : String) : Tally :=
  { t with stageCounts := bump stage t.stageCounts }

/-- The tally on one line. -/
def summary (t : Tally) : String :=
  t.opsIn.repr ++ " -> " ++ t.opsOut.repr ++ " ops, " ++ t.folded.repr ++ " folded, "
    ++ t.guardsElided.repr ++ " guard(s) elided, " ++ t.virtualsForced.repr
    ++ " virtual(s) forced of " ++ t.virtualsCreated.repr

/-- The tally as a table, with one line per stage at its end. -/
def text (t : Tally) : String :=
  "\n".intercalate <|
    [ "operations:         " ++ t.opsIn.repr ++ " -> " ++ t.opsOut.repr,
      "folded:             " ++ t.folded.repr,
      "guards elided/kept: " ++ t.guardsElided.repr ++ "/" ++ t.guardsKept.repr,
      "virtuals forced:    " ++ t.virtualsForced.repr ++ "/" ++ t.virtualsCreated.repr,
      "setfields absorbed: " ++ t.setfieldsAbsorbed.repr ]
    ++ t.stageCounts.map fun (name, count) => "  " ++ name ++ ": " ++ count.repr

end Tally

end TraceOpt
