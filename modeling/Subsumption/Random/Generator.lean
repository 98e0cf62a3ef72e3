/-!
A small pseudorandom generator, a linear congruence modulo 2^64.  Each draw gives 32
bits of the state before the move, folded and rotated; draws of other sizes are put
together from these, low part first.
-/

namespace Subsumption

structure Pcg where
  state : UInt64
deriving DecidableEq, Repr

/-- The number whose bytes are given, lowest first. -/
def ofBytes (bytes : List UInt8) : Nat := bytes.foldr (fun b n => b.toNat + 256 * n) 0

/-- The lowest `count` bytes of a number, lowest first. -/
def toBytes : Nat → Nat → List UInt8
  | 0, _ => []
  | count + 1, n => n.toUInt8 :: toBytes count (n / 256)

@[simp] theorem length_toBytes (count n : Nat) : (toBytes count n).length = count := by
  induction count generalizing n with
  | zero => rfl
  | succ count ih => simp [toBytes, ih]

/-- The number keeps every byte. -/
theorem toBytes_ofBytes (bytes : List UInt8) : toBytes bytes.length (ofBytes bytes) = bytes := by
  induction bytes with
  | nil => rfl
  | cons b bytes ih =>
    have hb := b.toNat_lt
    have hlow : (b.toNat + 256 * ofBytes bytes).toUInt8 = b := by
      apply UInt8.toNat_inj.1
      change (b.toNat + 256 * ofBytes bytes) % 256 = b.toNat
      omega
    have hrest : (b.toNat + 256 * ofBytes bytes) / 256 = ofBytes bytes := by omega
    change (b.toNat + 256 * ofBytes bytes).toUInt8 ::
      toBytes bytes.length ((b.toNat + 256 * ofBytes bytes) / 256) = b :: bytes
    rw [hlow, hrest, ih]

theorem eq_of_ofBytes_eq {bytes bytes' : List UInt8} (hlength : bytes.length = bytes'.length)
    (hnumber : ofBytes bytes = ofBytes bytes') : bytes = bytes' := by
  rw [← toBytes_ofBytes bytes, hlength, hnumber, toBytes_ofBytes]

namespace Pcg

def multiplier : UInt64 := 6364136223846793005

def increment : UInt64 := 1442695040888963407

def advance (state : UInt64) : UInt64 := state * multiplier + increment

def rotateRight (word amount : UInt32) : UInt32 :=
  (word >>> amount) ||| (word <<< (32 - amount))

/-- The 32 bits that are drawn at a state. -/
def output (state : UInt64) : UInt32 :=
  rotateRight (((state >>> 18) ^^^ state) >>> 27).toUInt32 (state >>> 59).toUInt32

def next (g : Pcg) : UInt32 × Pcg := (output g.state, ⟨advance g.state⟩)

/-- The bytes that a generator is started from. -/
abbrev Seed := Vector UInt8 8

def ofSeed (seed : Seed) : Pcg := ⟨(ofBytes seed.toList).toUInt64 + increment⟩

/-- The state that follows a state while a single word is stretched to a seed. -/
def stretch (state : UInt64) : UInt64 := state * multiplier + 11634580027462260723

/-- The seed that a single word is stretched to: the outputs of two steps. -/
def seedOfWord (word : UInt64) : Seed :=
  let first := stretch word
  let second := stretch first
  ⟨(toBytes 4 (output first).toNat ++ toBytes 4 (output second).toNat).toArray, by simp⟩

def ofWord (word : UInt64) : Pcg := ofSeed (seedOfWord word)

end Pcg

end Subsumption
