/-!
# Lines

A text is a sequence of lines, each ended by a line feed; the last one may lack it. A carriage
return directly before the line feed belongs to the line end.
-/

namespace StateSpace.Text

/-- Drops one carriage return from the end of a line given back to front. -/
def dropReturn : List Char → List Char
  | '\r' :: rest => rest
  | cs => cs

/-- Splits the remaining characters into lines, with the current line so far back to front. -/
def linesFrom : List Char → List Char → List (List Char)
  | [], [] => []
  | [], current => [current.reverse]
  | '\n' :: rest, current => (dropReturn current).reverse :: linesFrom rest []
  | c :: rest, current => linesFrom rest (c :: current)

/-- The lines of a text. The empty text has none, and a final line feed opens no further line. -/
def lines (s : String) : List (List Char) :=
  linesFrom s.toList []

/-- The lines with their numbers, counted from one. -/
def numberedLines (s : String) : List (Nat × List Char) :=
  (lines s).zipIdx 1 |>.map fun (line, k) => (k, line)

/-- Splits at the first occurrence of a character, which is dropped. -/
def splitOnce (sep : Char) (cs : List Char) : Option (List Char × List Char) :=
  match cs.dropWhile (· != sep) with
  | [] => none
  | _ :: rest => some (cs.takeWhile (· != sep), rest)

/-- The pieces between the occurrences of a character; `n` occurrences give `n + 1` pieces. -/
def splitOn (sep : Char) : List Char → List (List Char)
  | [] => [[]]
  | c :: cs =>
    if c == sep then [] :: splitOn sep cs
    else
      match splitOn sep cs with
      | [] => [[c]]
      | piece :: pieces => (c :: piece) :: pieces

end StateSpace.Text
