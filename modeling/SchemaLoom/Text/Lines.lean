/-! Texts as sequences of lines. A carriage return followed by a line feed is always one break. -/

namespace SchemaLoom

def isNewline (c : Char) : Bool := c == '\n' || c == '\r'

def consLine (c : Char) : List (List Char) → List (List Char)
  | [] => [[c]]
  | line :: lines => (c :: line) :: lines

/-- The pieces between the line breaks: always one more than there are breaks. -/
def splitLines : List Char → List (List Char)
  | [] => [[]]
  | '\r' :: '\n' :: rest => [] :: splitLines rest
  | c :: rest => if isNewline c then [] :: splitLines rest else consLine c (splitLines rest)

def joinLines (lines : List (List Char)) : List Char := List.intercalate ['\n'] lines

/-- Every kind of newline becomes a line feed. -/
def unifyNewlines (text : List Char) : List Char := joinLines (splitLines text)

end SchemaLoom
