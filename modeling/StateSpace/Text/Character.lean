/-!
# Characters

Text is read with one notion of blank throughout: the characters with the White_Space property.
This module fixes that class and the three ways of trimming by it. Everything works on lists of
characters, so that what is kept and what is dropped can be stated with `takeWhile` and `dropWhile`.
Names of types, labels and variables are compared without regard to the case of the ASCII letters.
Identifiers of formulas and descriptions use one small alphabet.
-/

namespace StateSpace.Text

/-- The characters with the White_Space property: the ASCII controls tab to carriage return, the
space, and the wider spaces and line separators outside ASCII. -/
def isBlank (c : Char) : Bool :=
  let n := c.toNat
  (0x09 ≤ n && n ≤ 0x0D) || n == 0x20 || n == 0x85 || n == 0xA0 || n == 0x1680 ||
    (0x2000 ≤ n && n ≤ 0x200A) || n == 0x2028 || n == 0x2029 || n == 0x202F || n == 0x205F ||
    n == 0x3000

def trimStart (cs : List Char) : List Char :=
  cs.dropWhile isBlank

def trimEnd (cs : List Char) : List Char :=
  (cs.reverse.dropWhile isBlank).reverse

def trim (cs : List Char) : List Char :=
  trimEnd (trimStart cs)

def trimmed (s : String) : String :=
  String.ofList (trim s.toList)

/-- The first run of characters that are not blank, if there is one. -/
def firstWord? (cs : List Char) : Option (List Char) :=
  match (trimStart cs).takeWhile (fun c => !isBlank c) with
  | [] => none
  | word => some word

/-! ## Letters and names -/

/-- Equality of texts up to the case of ASCII letters. -/
def sameIgnoringCase (a b : String) : Bool :=
  a.toList.map Char.toLower == b.toList.map Char.toLower

/-- Whether a text starts with the given upper-case word, up to the case of ASCII letters. -/
def startsWithWord (word : List Char) (cs : List Char) : Bool :=
  word.isPrefixOf (cs.map Char.toUpper)

/-- The characters of identifiers: ASCII letters and digits, underscore, dollar and full stop. -/
def isNameChar (c : Char) : Bool :=
  c.isAlphanum || c == '_' || c == '$' || c == '.'

/-- A declared name is a nonempty run of name characters. -/
def isName (cs : List Char) : Bool :=
  !cs.isEmpty && cs.all isNameChar

/-! ## Laws -/

theorem trimStart_eq_self {c : Char} {cs : List Char} (h : isBlank c = false) :
    trimStart (c :: cs) = c :: cs := by
  simp [trimStart, h]

end StateSpace.Text
