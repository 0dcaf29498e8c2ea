import StateSpace.Diagram.Ite

/-!
# Words of functions

A word is a list of functions, one a bit, the least significant bit first. This module builds the
circuits of the integer operations on words: comparison, the ripple adder, the shift-and-add
multiplier, restoring division and the barrel shifter. Operands of one operation have one length.
-/

namespace StateSpace.Circuit

open StateSpace.Diagram

/-- The bits of a word, the least significant one first. -/
abbrev Word := List Edge

/-- The word of `width` bits that spells `n` modulo `2 ^ width`. -/
def constant (n width : Nat) : Word :=
  (List.range width).map fun i => .constant (n.testBit i)

def complement (a : Word) : Word :=
  a.map fun e => -e

/-- Applies a connective to the bits of two words, position by position. -/
def zipBits (connect : Edge → Edge → Build Edge) : Word → Word → Build Word
  | x :: a, y :: b => do
    let e ← connect x y
    let rest ← zipBits connect a b
    pure (e :: rest)
  | _, _ => pure []

def select (condition : Edge) : Word → Word → Build Word :=
  zipBits (ite condition)

/-! ## Comparison -/

/-- The conjunction of `acc` and of the equality of two words. -/
def equalFrom (acc : Edge) : Word → Word → Build Edge
  | x :: a, y :: b => do
    let same ← iff x y
    let acc ← and acc same
    equalFrom acc a b
  | _, _ => pure acc

def equal (a b : Word) : Build Edge :=
  equalFrom .one a b

/-- The order of two words, where `less` is the order of the bits before. -/
def lessFrom (less : Edge) : Word → Word → Build Edge
  | x :: a, y :: b => do
    let strictly ← and (-x) y
    let same ← iff x y
    let kept ← and same less
    let less ← or strictly kept
    lessFrom less a b
  | _, _ => pure less

/-- The word with its most significant bit flipped. -/
def flipSign : Word → Word
  | [] => []
  | [x] => [-x]
  | x :: y :: a => x :: flipSign (y :: a)

/-- The order of two words. Flipping the sign bits turns the signed order into the unsigned one. -/
def lessThan (signed : Bool) (a b : Word) : Build Edge :=
  if signed then lessFrom .zero (flipSign a) (flipSign b) else lessFrom .zero a b

/-! ## Sums and products -/

def fullAdder (a b c : Edge) : Build (Edge × Edge) := do
  let half ← xor a b
  let sum ← xor half c
  let both ← and a b
  let half ← xor a b
  let passed ← and c half
  let carry ← or both passed
  pure (sum, carry)

/-- The sum of two words and a carry, modulo the width. -/
def add : Word → Word → Edge → Build Word
  | x :: a, y :: b, carry => do
    let (sum, carry) ← fullAdder x y carry
    let rest ← add a b carry
    pure (sum :: rest)
  | _, _, _ => pure []

def sub (a b : Word) : Build Word :=
  add a (complement b) .one

def negate (a : Word) : Build Word :=
  sub (constant 0 a.length) a

/-- Adds to `acc` the multiples of `a` that the bits of a word select; `a` doubles at each bit. -/
def mulFrom (acc a : Word) : Word → Build Word
  | [] => pure acc
  | bit :: b => do
    if bit = .zero then mulFrom acc (.zero :: a.dropLast) b
    else
      let row ← a.mapM fun x => and x bit
      let acc ← add acc row .zero
      mulFrom acc (.zero :: a.dropLast) b

/-- The product of two words, modulo the width. -/
def mul (a b : Word) : Build Word :=
  mulFrom (constant 0 a.length) a b

/-! ## Division -/

/-- Restoring division, bit by bit from the most significant bit of the dividend down. The remainder
and the divisor have one bit more than the dividend, which keeps the doubled remainder in range. -/
def divideFrom (divisor : Word) : Word → Word → Word → Build (Word × Word)
  | [], quotient, remainder => pure (quotient, remainder)
  | bit :: dividend, quotient, remainder => do
    let shifted := bit :: remainder.dropLast
    let less ← lessThan false shifted divisor
    let fits := -less
    let difference ← sub shifted divisor
    let remainder ← select fits difference shifted
    divideFrom divisor dividend (fits :: quotient) remainder

/-- Quotient and remainder of unsigned words. A zero divisor gives a quotient of all ones and the
dividend as remainder. -/
def divideUnsigned (a b : Word) : Build (Word × Word) := do
  let (quotient, remainder) ←
    divideFrom (b ++ [.zero]) a.reverse [] (constant 0 (a.length + 1))
  pure (quotient, remainder.take a.length)

def sign (a : Word) : Edge :=
  a.getLastD .zero

/-- Quotient and remainder of signed words, by way of the magnitudes. The quotient rounds toward
zero and the remainder takes the sign of the dividend. -/
def divideSigned (a b : Word) : Build (Word × Word) := do
  let negA ← negate a
  let magA ← select (sign a) negA a
  let negB ← negate b
  let magB ← select (sign b) negB b
  let (q, r) ← divideUnsigned magA magB
  let differ ← xor (sign a) (sign b)
  let negQ ← negate q
  let quotient ← select differ negQ q
  let negR ← negate r
  let remainder ← select (sign a) negR r
  pure (quotient, remainder)

def divide (signed : Bool) (a b : Word) : Build (Word × Word) :=
  if signed then divideSigned a b else divideUnsigned a b

/-! ## Shifts -/

inductive Shift where
  | left
  | logical
  | arithmetic
  deriving DecidableEq, Repr, Inhabited

/-- Moves a word by a number of positions, filling up with `fill`. -/
def moveBy (kind : Shift) (fill : Edge) (steps : Nat) (a : Word) : Word :=
  match kind with
  | .left => (List.replicate steps fill ++ a).take a.length
  | _ => (a.drop steps ++ List.replicate steps fill).take a.length

/-- The stages of a barrel shifter: the `k`-th bit of the amount moves by `2 ^ k`. -/
def shiftFrom (kind : Shift) (fill : Edge) (k : Nat) (a : Word) : Word → Build Word
  | [] => pure a
  | bit :: amount => do
    let a ← select bit (moveBy kind fill (Nat.pow 2 k) a) a
    shiftFrom kind fill (k + 1) a amount

/-- The number of amount bits that a shift of `width` bits looks at. -/
def stages (width : Nat) : Nat :=
  Nat.log2 (max width 2 - 1) + 1

/-- Shifts a word by an amount, of which only the lowest bits count. -/
def shift (kind : Shift) (a amount : Word) : Build Word :=
  let fill := if kind = .arithmetic then sign a else .zero
  shiftFrom kind fill 0 a (amount.take (stages a.length))

/-- The word brought to a width, cut off or filled up. -/
def resize (fill : Edge) (width : Nat) (a : Word) : Word :=
  (a ++ List.replicate (width - a.length) fill).take width

end StateSpace.Circuit
