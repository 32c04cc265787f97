/-!
# TOML documents

The values of a TOML document and the rules by which its lines build tables.  A table may be
opened once by a header; dotted keys open tables of their own; tables on the way to either come
into being by themselves and may still be opened by a header later.  An inline table is closed.

* `Toml.insertAt` adds a key with a value to a table.
* `Toml.openTable` and `Toml.openTables` are what `[name]` and `[[name]]` do.
-/

namespace TraceOpt

/-- How a table came into being. -/
inductive Toml.Origin where
  /-- By its own header. -/
  | header
  /-- On the way to the table of a header. -/
  | implied
  /-- By a dotted key. -/
  | dotted
  deriving DecidableEq

/-- A value or table of a document. -/
inductive Toml where
  | string (s : String)
  | boolean (b : Bool)
  /-- A number or a date or time, as it is spelled. -/
  | scalar (spelling : String)
  | array (elements : List Toml)
  | inline (entries : List (String × Toml))
  | table (origin : Toml.Origin) (entries : List (String × Toml))
  /-- An array of tables with a header each. -/
  | tables (each : List (List (String × Toml)))

namespace Toml

/-- The entries of a table, in order. -/
abbrev Entries := List (String × Toml)

/-- Puts another value under a key that is there. -/
def replace (key : String) (v : Toml) (es : Entries) : Entries :=
  es.map fun (k, old) => if k == key then (k, v) else (k, old)

/-- Changes the table at the end of a path.  Tables on the way come into being as `origin` says;
an array of tables stands for its last one.  There is no way through a value, and no dotted way
through a table with a header. -/
def modifyAt (origin : Origin) (f : Origin → Entries → Option Entries) :
    List String → Origin → Entries → Option Entries
  | [], here, es => f here es
  | key :: path, _, es =>
    match es.lookup key with
    | none => do
      let sub ← modifyAt origin f path origin []
      return es ++ [(key, table origin sub)]
    | some (table here sub) => do
      if origin = .dotted ∧ here = .header then none
      let sub ← modifyAt origin f path here sub
      return replace key (table here sub) es
    | some (tables each) => do
      let sub ← modifyAt origin f path .header (each.getLastD [])
      return replace key (tables (each.dropLast ++ [sub])) es
    | some _ => none

/-- Adds a key with a value to the table at the end of a dotted path, which only dotted keys may
have opened.  A key may be there once only. -/
def insertAt (path : List String) (key : String) (v : Toml) (es : Entries) : Option Entries :=
  modifyAt .dotted insert path .header es
where
  /-- Adds the key to the table that was found. -/
  insert (here : Origin) (es : Entries) : Option Entries :=
    if (here = .dotted) = (path = []) then none
    else if (es.lookup key).isSome then none
    else some (es ++ [(key, v)])

/-- Opens a table by its header. -/
def openTable (path : List String) (key : String) (es : Entries) : Option Entries :=
  modifyAt .implied insert path .header es
where
  /-- Adds the table, or takes over one that came into being on the way to another. -/
  insert (_ : Origin) (es : Entries) : Option Entries :=
    match es.lookup key with
    | none => some (es ++ [(key, table .header [])])
    | some (table .implied sub) => some (replace key (table .header sub) es)
    | some _ => none

/-- Opens one more table of an array by its header. -/
def openTables (path : List String) (key : String) (es : Entries) : Option Entries :=
  modifyAt .implied insert path .header es
where
  /-- Adds an empty table to the array, which comes into being with its first table. -/
  insert (_ : Origin) (es : Entries) : Option Entries :=
    match es.lookup key with
    | none => some (es ++ [(key, tables [[]])])
    | some (tables each) => some (replace key (tables (each ++ [[]])) es)
    | some _ => none

/-- Changes the table that the last header opened. -/
def within (header : List String) (f : Entries → Option Entries) (es : Entries) :
    Option Entries :=
  modifyAt .implied (fun _ es => f es) header .header es

end Toml

end TraceOpt
