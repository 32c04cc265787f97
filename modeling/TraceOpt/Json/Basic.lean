/-!
# JSON values

The values that a JSON text can denote.  An object keeps its members in the order of the text and
as often as they are written; a number that is not a plain integer keeps its spelling.
-/

namespace TraceOpt

/-- A JSON value.  A string is `none` when it has an unpaired surrogate escape: that is valid JSON,
but no text holds such a character. -/
inductive Json where
  | null
  | bool (b : Bool)
  /-- A number without fraction and exponent; the spelling `-0` is not among these. -/
  | integer (n : Int)
  /-- Any other number, as it is spelled. -/
  | real (spelling : String)
  | string (text : Option String)
  | array (elements : List Json)
  | object (members : List (Option String × Json))

namespace Json

/-! ### Taking values apart -/

/-- An integer in the range of unsigned 32-bit words. -/
def word? : Json → Option UInt32
  | integer n => if 0 ≤ n ∧ n < UInt32.size then some (.ofNat n.toNat) else none
  | _ => none

/-- An integer in the range of signed 64-bit words. -/
def int64? : Json → Option Int64
  | integer n =>
    if Int64.minValue.toInt ≤ n ∧ n ≤ Int64.maxValue.toInt then some (.ofInt n) else none
  | _ => none

/-- The elements of an array. -/
def elements? : Json → Option (List Json)
  | array es => some es
  | _ => none

/-- The name in a value that picks one of several names: a string, or an object with the name as
its only member and null as its value. -/
def variant? : Json → Option String
  | string s => s
  | object [(k, null)] => k
  | _ => none

/-- The values of the members with the given names, in the order of the names.  Members with other
names are skipped; `none` if a member has no proper name or one of the names is there twice. -/
def fields? (names : List String) (members : List (Option String × Json)) :
    Option (List (Option Json)) := do
  let named ← members.mapM fun (k, v) => k.map (·, v)
  names.mapM fun name =>
    match named.filter (·.1 == name) with
    | [] => some none
    | [(_, v)] => some (some v)
    | _ => none

end Json

end TraceOpt
