import TraceOpt.Fault

/-!
# Route tables

A stage treats operations by their kind.  Handlers are registered kind by kind, the last one
registered for a kind wins, and a finished table has a handler for every kind: either because all
kinds were registered, or because a default takes the rest.
-/

namespace TraceOpt

universe u

/-- Handlers registered so far. -/
structure Routes (H : Type u) where
  /-- The handler of a kind, if one is registered. -/
  handler? : Kind → Option H

/-- A handler for every kind. -/
structure RouteTable (H : Type u) where
  /-- The handler of a kind. -/
  handler : Kind → H

namespace Routes

variable {H : Type u}

/-- No handlers. -/
def none : Routes H := ⟨fun _ => .none⟩

/-- Sends a kind to a handler from now on. -/
def register (r : Routes H) (kind : Kind) (h : H) : Routes H :=
  ⟨fun k => if k = kind then some h else r.handler? k⟩

/-- Sends several kinds to one handler. -/
def registerAll (r : Routes H) (kinds : List Kind) (h : H) : Routes H :=
  kinds.foldl (fun r k => r.register k h) r

/-- Whether a kind has a handler. -/
def isRegistered (r : Routes H) (kind : Kind) : Bool := (r.handler? kind).isSome

/-- The first kind without a handler. -/
def gap? (r : Routes H) : Option Kind := Kind.all.find? fun k => !r.isRegistered k

theorem isSome_of_gap?_eq_none {r : Routes H} (h : r.gap? = .none) (k : Kind) :
    (r.handler? k).isSome = true := by
  simpa [isRegistered, Option.isSome_iff_ne_none] using List.find?_eq_none.1 h k k.mem_all

/-- The table of the registered handlers; the first kind without one is a fault. -/
def table (r : Routes H) : Except Fault (RouteTable H) :=
  match h : r.gap? with
  | some k => .error (.missingHandler k)
  | .none => .ok ⟨fun k => (r.handler? k).get (isSome_of_gap?_eq_none h k)⟩

/-- The table that sends every kind without a handler to a default. -/
def tableOr (r : Routes H) (default : H) : RouteTable H :=
  ⟨fun k => (r.handler? k).getD default⟩

end Routes

end TraceOpt
