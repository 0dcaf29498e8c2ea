/-!
# Computed tables

A computed table remembers results of a function in a fixed number of slots. The slot of a key is
picked by its hash, and a newer entry simply evicts an older one of the same slot. Entries keep
their whole key, so a lookup never returns the result of another key; what is lost is only time. The
table counts its hits and misses.

The word that picks a slot packs numbers by pairing: the quarter plane is walked in growing square
shells. On machine words the walk wraps around; as long as both numbers are below `2 ^ 32` it does
not, and distinct pairs get distinct numbers.
-/

namespace StateSpace.Diagram

/-- The number of a pair: shell `max a b` starts at its square. -/
def pair (a b : UInt64) : UInt64 :=
  if a < b then b * b + a else a * a + a + b

/-- The number of a triple, by pairing twice. -/
def triple (a b c : UInt64) : UInt64 :=
  pair (pair a b) c

/-- Keys that know the word by which their slot is picked. -/
class SlotHash (κ : Type) where
  slotHash : κ → UInt64

/-- A direct-mapped table of `2 ^ bits` slots. -/
structure ComputedTable (κ ν : Type) where
  slots : Array (Option (κ × ν))
  hits : Nat := 0
  misses : Nat := 0

namespace ComputedTable

variable {κ ν : Type} [SlotHash κ] [DecidableEq κ]

/-- The largest number of bits that a table may have. -/
def maxBits : Nat := 31

/-- The empty table of `2 ^ bits` slots. -/
def empty (bits : Nat) : ComputedTable κ ν where
  slots := Array.replicate (Nat.pow 2 bits) none

/-- The empty table, refused if it would have too many slots. -/
def empty? (bits : Nat) : Option (ComputedTable κ ν) :=
  if bits ≤ maxBits then some (empty bits) else none

def slotOf (t : ComputedTable κ ν) (key : κ) : Nat :=
  (SlotHash.slotHash key % t.slots.size.toUInt64).toNat

/-- The entry of a key, if its slot holds one for this very key. -/
def peek (t : ComputedTable κ ν) (key : κ) : Option ν :=
  match t.slots.getD (t.slotOf key) none with
  | some (stored, value) => if stored = key then some value else none
  | none => none

/-- Looks a key up and counts the outcome. -/
def find? (t : ComputedTable κ ν) (key : κ) : Option ν × ComputedTable κ ν :=
  match t.peek key with
  | some value => (some value, { t with hits := t.hits + 1 })
  | none => (none, { t with misses := t.misses + 1 })

/-- Remembers a result, evicting whatever its slot held. -/
def insert (t : ComputedTable κ ν) (key : κ) (value : ν) : ComputedTable κ ν :=
  let slot := t.slotOf key
  { t with slots := t.slots.setIfInBounds slot (some (key, value)) }

end ComputedTable

end StateSpace.Diagram
