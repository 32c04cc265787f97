import TraceOpt.Trace.Basic

/-!
# Hashing operands

What is known about operands is kept in a hash trie.  An optimization can be run with any hash
function, and its theory is stated for any; this is the one that programs run it with.
-/

namespace TraceOpt

namespace Operand

/-- The hash of an operand: its number, with what it numbers in the low bits. -/
instance : Hashable Operand where
  hash
    | input n => n.toUInt64 * 4
    | op id => id.toUInt64 * 4 + 1
    | const n => n.toUInt64 * 4 + 2

end Operand

end TraceOpt
