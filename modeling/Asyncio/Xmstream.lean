import Mathlib.Algebra.Group.Nat.Defs

/-!
# Memory streams

Of `xmstream`, what the message protocols need: whether there is room for what they are about to read.
A stream owns its memory, and the memory is always there.
-/

namespace Asyncio

/-- `PTRDIFF_MAX` -/
def ptrdiffMax : ℕ := 2 ^ 63 - 1

/-- `SIZE_MAX` -/
def sizeMax : ℕ := 2 ^ 64 - 1

/-- `xmstream::reserve`, for a stream that is at its end: whether there is room. -/
def reserve (stream : List UInt8) (size : UInt64) : Bool :=
  decide (stream.length ≤ ptrdiffMax ∧ size.toNat ≤ ptrdiffMax - stream.length)

end Asyncio
