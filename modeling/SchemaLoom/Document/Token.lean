import SchemaLoom.Text.Lines

/-! The tokens of a document, and the faults that can be found in its text. -/

namespace SchemaLoom

inductive Punctuator where
  | bang
  | dollar
  | amp
  | parenL
  | parenR
  | spread
  | colon
  | equals
  | atSign
  | bracketL
  | bracketR
  | braceL
  | pipe
  | braceR
deriving DecidableEq, Repr

def Punctuator.text : Punctuator → String
  | .bang => "!"
  | .dollar => "$"
  | .amp => "&"
  | .parenL => "("
  | .parenR => ")"
  | .spread => "..."
  | .colon => ":"
  | .equals => "="
  | .atSign => "@"
  | .bracketL => "["
  | .bracketR => "]"
  | .braceL => "\x7b"
  | .pipe => "|"
  | .braceR => "\x7d"

inductive Lexeme where
  | punctuator (mark : Punctuator)
  | name (text : String)
  | int (text : String)
  | float (text : String)
  | string (text : String)
  | blockString (text : String)
deriving DecidableEq, Repr

/-- The text that a lexeme carries, punctuators having none. -/
def Lexeme.text? : Lexeme → Option String
  | .punctuator _ => none
  | .name text => some text
  | .int text => some text
  | .float text => some text
  | .string text => some text
  | .blockString text => some text

/-- A lexeme with the positions of its first character and of the first one after it. -/
structure Token where
  lexeme : Lexeme
  start : Nat
  stop : Nat
deriving DecidableEq, Repr

/-- How a token is named in messages, the end of the text being `none`. -/
def describe : Option Lexeme → String
  | none => "<EOF>"
  | some (.punctuator mark) => "'" ++ mark.text ++ "'"
  | some (.name text) => "Name '" ++ text ++ "'"
  | some (.int text) => "Int '" ++ text ++ "'"
  | some (.float text) => "Float '" ++ text ++ "'"
  | some (.string text) => "String '" ++ text ++ "'"
  | some (.blockString text) => "BlockString '" ++ text ++ "'"

/-- The number of a character in upper case hexadecimal digits, at least four of them. -/
def codePoint (c : Char) : String :=
  let digits := (Nat.toDigits 16 c.toNat).map Char.toUpper
  "U+" ++ String.ofList (List.replicate (4 - digits.length) '0' ++ digits)

/-- How a character is named in messages, the end of the text being `none`. -/
def describeChar : Option Char → String
  | none => "<EOF>"
  | some c =>
    if '\x20' ≤ c ∧ c ≤ '\x7e' then
      if c = '"' then "'\"'" else "'" ++ String.singleton c ++ "'"
    else codePoint c

inductive SyntaxFault where
  | unexpectedCharacter (c : Char)
  | singleQuote
  | digitAfterZero (found : Option Char)
  | digitExpected (found : Option Char)
  | unterminatedString
  | badUnicodeEscape (text : String)
  | badEscape (text : String)
  | expected (what : String) (found : Option Lexeme)
  | unexpected (found : Option Lexeme)
  | unexpectedDescription
  | describedShorthand
  | unexpectedVariable (name : String)
  | reservedEnumValue (found : Lexeme)
  | nestedTooDeeply
deriving DecidableEq

namespace SyntaxFault

/-- The fault in words, without the heading that all messages share. -/
def words : SyntaxFault → String
  | .unexpectedCharacter c => "Unexpected character: " ++ describeChar (some c) ++ "."
  | .singleQuote =>
    "Unexpected single quote character ('), did you mean to use a double quote (\")?"
  | .digitAfterZero found =>
    "Invalid number, unexpected digit after 0: " ++ describeChar found ++ "."
  | .digitExpected found =>
    "Invalid number, expected digit but got: " ++ describeChar found ++ "."
  | .unterminatedString => "Unterminated string."
  | .badUnicodeEscape text => "Invalid Unicode escape sequence: '" ++ text ++ "'."
  | .badEscape text => "Invalid character escape sequence: '" ++ text ++ "'."
  | .expected what found => "Expected " ++ what ++ ", found " ++ describe found ++ "."
  | .unexpected found => "Unexpected " ++ describe found ++ "."
  | .unexpectedDescription =>
    "Unexpected description, only GraphQL definitions support descriptions."
  | .describedShorthand =>
    "Unexpected description, descriptions are not supported on shorthand queries."
  | .unexpectedVariable name => "Unexpected variable '$" ++ name ++ "' in constant value."
  | .reservedEnumValue found =>
    describe (some found) ++ " is reserved and cannot be used for an enum value."
  | .nestedTooDeeply => "Document is nested too deeply. Parsing aborted."

def message (fault : SyntaxFault) : String := "Syntax Error: " ++ fault.words

end SyntaxFault

/-- A fault with the position in the text where it was found. -/
structure SyntaxError where
  fault : SyntaxFault
  position : Nat
deriving DecidableEq

/-- The line and column of a position, both counted from one. -/
def lineColumn (body : List Char) (position : Nat) : Nat × Nat :=
  let lines := splitLines (body.take position)
  (lines.length, (lines.getLast?.getD []).length + 1)

end SchemaLoom
