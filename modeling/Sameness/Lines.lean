/-! The lines of a text. -/

namespace Sameness.Lines

/-- A line ends at a line feed, together with one carriage return right before it; a carriage return
that stands elsewhere belongs to its line. The last line may do without an end. -/
def ofChars : List Char → List (List Char)
  | [] => []
  | '\n' :: cs => [] :: ofChars cs
  | '\r' :: '\n' :: cs => [] :: ofChars cs
  | c :: cs =>
    match ofChars cs with
    | [] => [[c]]
    | line :: lines => (c :: line) :: lines

def ofString (s : String) : List String := (ofChars s.toList).map String.ofList

end Sameness.Lines
