/-! How characters and strings are written. -/

namespace Sameness.Literal

def escape : Char → List Char
  | '"' => ['\\', '"']
  | '\\' => ['\\', '\\']
  | '\n' => ['\\', 'n']
  | '\t' => ['\\', 't']
  | '\r' => ['\\', 'r']
  | c => [c]

/-- Between double quotes, so that no bare quote or line break is left inside. -/
def quote (cs : List Char) : List Char := '"' :: (cs.flatMap escape ++ ['"'])

/-- Reads up to the closing quote: what was quoted, and what follows. -/
def readBody : List Char → Option (List Char × List Char)
  | '"' :: rest => some ([], rest)
  | '\\' :: '"' :: rest => keep '"' (readBody rest)
  | '\\' :: '\\' :: rest => keep '\\' (readBody rest)
  | '\\' :: 'n' :: rest => keep '\n' (readBody rest)
  | '\\' :: 't' :: rest => keep '\t' (readBody rest)
  | '\\' :: 'r' :: rest => keep '\r' (readBody rest)
  | c :: rest => if c = '\\' then none else keep c (readBody rest)
  | [] => none
where
  keep (c : Char) (r : Option (List Char × List Char)) : Option (List Char × List Char) :=
    r.map fun (cs, rest) => (c :: cs, rest)

/-- Reads a quoted string off the front of a text. -/
def read : List Char → Option (List Char × List Char)
  | '"' :: rest => readBody rest
  | _ => none

def string (s : String) : String := String.ofList (quote s.toList)

/-- Characters that could not be seen are named. -/
def character : Char → String
  | ' ' => "#\\space"
  | '\n' => "#\\newline"
  | '\t' => "#\\tab"
  | '\r' => "#\\return"
  | '\x00' => "#\\null"
  | c => "#\\" ++ c.toString

end Sameness.Literal
