import StateSpace.Text.Character

/-!
# Value types

A variable or constant is an integer of one of four widths, signed or not, a truth value, or a real.
Integers are two's-complement words: `ValueType.wrap` brings any whole number into the range of a
type, and every operation on integers wraps.
-/

namespace StateSpace

inductive Width where
  | w8
  | w16
  | w32
  | w64
  deriving DecidableEq, Hashable, Repr, Inhabited

def Width.bits : Width → Nat
  | w8 => 8
  | w16 => 16
  | w32 => 32
  | w64 => 64

/-- The kinds of reals, which are only ever carried as text. -/
inductive Precision where
  | float
  | double
  | decimal
  deriving DecidableEq, Hashable, Repr, Inhabited

inductive ValueType where
  | signed (width : Width)
  | unsigned (width : Width)
  | bool
  | real (precision : Precision)
  deriving DecidableEq, Hashable, Repr, Inhabited

namespace ValueType

/-- Every type, in the order by which types are sorted. -/
def all : List ValueType :=
  [signed .w8, signed .w16, signed .w32, signed .w64,
    unsigned .w8, unsigned .w16, unsigned .w32, unsigned .w64,
    bool, real .float, real .double, real .decimal]

/-- The position of a type in `all`. -/
def rank : ValueType → Nat
  | signed .w8 => 0
  | signed .w16 => 1
  | signed .w32 => 2
  | signed .w64 => 3
  | unsigned .w8 => 4
  | unsigned .w16 => 5
  | unsigned .w32 => 6
  | unsigned .w64 => 7
  | bool => 8
  | real .float => 9
  | real .double => 10
  | real .decimal => 11

instance : Ord ValueType where
  compare a b := compare a.rank b.rank

def name : ValueType → String
  | signed .w8 => "sint8"
  | signed .w16 => "sint16"
  | signed .w32 => "sint32"
  | signed .w64 => "sint64"
  | unsigned .w8 => "uint8"
  | unsigned .w16 => "uint16"
  | unsigned .w32 => "uint32"
  | unsigned .w64 => "uint64"
  | bool => "bool"
  | real .float => "float"
  | real .double => "double"
  | real .decimal => "decimal"

/-- Reads a type name in any letter case, with blanks around it. -/
def ofName? (text : String) : Option ValueType :=
  all.find? fun t => Text.sameIgnoringCase t.name (Text.trimmed text)

/-- The number of bits of a type; reals have no bits. -/
def width? : ValueType → Option Nat
  | signed w => some w.bits
  | unsigned w => some w.bits
  | bool => some 1
  | real _ => none

/-- Only the signed integer types have a sign bit. -/
def isSigned : ValueType → Bool
  | signed _ => true
  | _ => false

def isInteger : ValueType → Bool
  | signed _ => true
  | unsigned _ => true
  | _ => false

def isBool : ValueType → Bool
  | bool => true
  | _ => false

def isReal : ValueType → Bool
  | real _ => true
  | _ => false

/-- The modulus of a type's arithmetic; types without bits are held in a word of 64 bits. -/
def modulus (t : ValueType) : Nat :=
  Nat.pow 2 (t.width?.getD 64)

/-- The number congruent to `n` modulo the type's modulus that lies in the type's range: around zero
for signed types, from zero on for the others. -/
def wrap (t : ValueType) (n : Int) : Int :=
  if t.isSigned then Int.bmod n t.modulus else n % t.modulus

/-- The bits of a number at a type, as a natural number. -/
def bits (t : ValueType) (n : Int) : Nat :=
  (n % t.modulus).toNat

/-- The wrapped number as it stands in a signed machine word of 64 bits. -/
def word (t : ValueType) (n : Int) : Int :=
  Int.bmod (t.wrap n) (Nat.pow 2 64)

end ValueType

end StateSpace
