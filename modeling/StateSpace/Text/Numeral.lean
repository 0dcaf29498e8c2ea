/-!
# Numerals

Whole numbers are an optional sign and a nonempty run of decimal digits, kept only if they fit the
machine range asked for. Reals are never evaluated: a real constant is its text, and this module
only says which texts are numerals.
-/

namespace StateSpace.Text

def digitsValue (ds : List Char) : Nat :=
  ds.foldl (fun n d => 10 * n + (d.toNat - '0'.toNat)) 0

/-- Reads a nonempty run of decimal digits. -/
def natural? (cs : List Char) : Option Nat :=
  if cs.isEmpty || !cs.all Char.isDigit then none else some (digitsValue cs)

/-- Reads a natural number that may carry a plus sign. -/
def unsigned? : List Char → Option Nat
  | '+' :: ds => natural? ds
  | ds => natural? ds

/-- Reads a whole number with an optional sign. -/
def signed? : List Char → Option Int
  | '-' :: ds => (natural? ds).map fun n => -(n : Int)
  | ds => (unsigned? ds).map fun n => (n : Int)

/-- Whole numbers that fit a two's-complement word of 128 bits. -/
def fits128 (n : Int) : Bool :=
  -(Nat.pow 2 127 : Int) ≤ n && n < Nat.pow 2 127

/-- A whole number as it stands in a two's-complement word of 128 bits. -/
def word128 (n : Int) : Int :=
  Int.bmod n (Nat.pow 2 128)

/-- Reads a whole number that fits a signed word of 128 bits. -/
def signed128? (cs : List Char) : Option Int :=
  (signed? cs).filter fits128

/-- Reads a natural number that fits a word of 64 bits. -/
def unsigned64? (cs : List Char) : Option Nat :=
  (unsigned? cs).filter fun n => n < Nat.pow 2 64

/-! ## Reals -/

/-- Drops one sign, if there is one. -/
def dropSign : List Char → List Char
  | '+' :: rest => rest
  | '-' :: rest => rest
  | cs => cs

/-- An exponent part, or nothing at all. -/
def isExponent : List Char → Bool
  | [] => true
  | c :: rest =>
    (c == 'e' || c == 'E') && !(dropSign rest).isEmpty && (dropSign rest).all Char.isDigit

/-- A decimal without sign: digits with at most one point and at least one digit, then an
exponent. -/
def isDecimal (cs : List Char) : Bool :=
  let whole := cs.takeWhile Char.isDigit
  match cs.dropWhile Char.isDigit with
  | '.' :: rest =>
    let fraction := rest.takeWhile Char.isDigit
    !(whole.isEmpty && fraction.isEmpty) && isExponent (rest.dropWhile Char.isDigit)
  | rest => !whole.isEmpty && isExponent rest

/-- The numerals of reals: a decimal, an infinity or a not-a-number, with an optional sign. -/
def isReal (cs : List Char) : Bool :=
  let body := dropSign cs
  let word := String.ofList (body.map Char.toLower)
  isDecimal body || word == "inf" || word == "infinity" || word == "nan"

end StateSpace.Text
