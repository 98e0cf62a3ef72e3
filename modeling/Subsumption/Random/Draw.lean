import Subsumption.Random.Generator
/-!
Draws of words, bytes, signs and bounded numbers.
-/

namespace Subsumption

/-- A computation that draws from a generator, and may fail. -/
abbrev Draw := StateT Pcg Option

namespace Draw

def word32 : Draw UInt32 := fun g => some g.next

/-- Draws 64 bits, the low half first. -/
def word64 : Draw UInt64 := do
  let low ← word32
  let high ← word32
  return (high.toUInt64 <<< 32) ||| low.toUInt64

/-- Draws bytes from words of 64 bits.  When four bytes or fewer remain they
are the first of a word of 32 bits. -/
def bytes (count : Nat) : Draw (List UInt8) := do
  if 8 ≤ count then
    let word ← word64
    let rest ← bytes (count - 8)
    return toBytes 8 word.toNat ++ rest
  else if 4 < count then
    let word ← word64
    return toBytes count word.toNat
  else if 0 < count then
    let word ← word32
    return toBytes count word.toNat
  else
    return []

def wordCount : Nat := 0x100000000

/-- Draws a number below `bound`, which is at most `wordCount`: the high half
of the product of a word with the bound.  When the low half is so large that
more bits of the word could carry into the high half, one more word stands for
them. -/
def below (bound : Nat) : Draw Nat := do
  let product := (← word32).toNat * bound
  let high := product / wordCount
  let low := product % wordCount
  if wordCount - bound < low then
    let carried := (← word32).toNat * bound / wordCount
    return if wordCount ≤ low + carried then high + 1 else high
  else
    return high

/-- Draws a sign, each as likely as the other. -/
def sign : Draw Bool := do
  return (← word64) < 0x8000000000000000

end Draw

end Subsumption
