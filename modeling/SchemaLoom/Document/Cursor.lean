import SchemaLoom.Document.Lexer
import SchemaLoom.Document.Tree

/-! Reading a sequence of tokens from left to right, one token ahead. -/

namespace SchemaLoom

/-- A place between two tokens: what is still to be read, and where the last token read ends. -/
structure Cursor where
  tokens : List Token
  ending : Ending
  previous : Nat
  /-- The text that nodes are located in, if they are. -/
  body : Option String

abbrev Parser := StateT Cursor (Except SyntaxError)

namespace Parser

def failAt (position : Nat) (fault : SyntaxFault) : Parser α := throw ⟨fault, position⟩

def endPosition : Ending → Nat
  | .finished position => position
  | .faulty e => e.position

/-- The next token, none at the end of the text. -/
def peek : Parser (Option Token) := do return (← get).tokens.head?

def peekLexeme : Parser (Option Lexeme) := do return (← peek).map Token.lexeme

/-- Where the next token starts, or the text ends. -/
def position : Parser Nat := do
  let cursor ← get
  return (cursor.tokens.head?.map Token.start).getD (endPosition cursor.ending)

def unexpected : Parser α := do failAt (← position) (.unexpected (← peekLexeme))

def expected (what : String) : Parser α := do failAt (← position) (.expected what (← peekLexeme))

/-- Having no token left is an error if the text has a fault there. -/
def checkEnding (tokens : List Token) (ending : Ending) : Except SyntaxError Unit :=
  match tokens, ending with
  | [], .faulty e => .error e
  | _, _ => .ok ()

/-- Go past the next token. The one after it must be free of faults. -/
def advance : Parser Unit := do
  let cursor ← get
  match cursor.tokens with
  | [] => return
  | token :: rest =>
    checkEnding rest cursor.ending
    set { cursor with tokens := rest, previous := token.stop }

def peekSecond : Parser (Option Token) := do
  let cursor ← get
  checkEnding (cursor.tokens.drop 1) cursor.ending
  return (cursor.tokens.drop 1).head?

/-- Go past the next token if it is the given lexeme. -/
def skip? (lexeme : Lexeme) : Parser Bool := do
  if (← peekLexeme) = some lexeme then
    advance
    return true
  else return false

def at? (mark : Punctuator) : Parser Bool := do return (← peekLexeme) = some (.punctuator mark)

def mark? (mark : Punctuator) : Parser Bool := skip? (.punctuator mark)

def keyword? (word : String) : Parser Bool := skip? (.name word)

def mark (mark : Punctuator) : Parser Unit := do
  unless ← mark? mark do expected (describe (some (.punctuator mark)))

def keyword (word : String) : Parser Unit := do
  unless ← keyword? word do expected ("'" ++ word ++ "'")

def name : Parser Name := do
  match ← peekLexeme with
  | some (.name text) =>
    advance
    return text
  | _ => expected "Name"

/-- The location of a node from a start position to the last token read. -/
def locate (start : Nat) : Parser (Option Location) := do
  let cursor ← get
  return cursor.body.map fun body => ⟨body, start, cursor.previous⟩

/-- Items up to a closing mark. Each item takes at least one token, so the number of tokens left
bounds the number of items. -/
def itemsUntil (close : Punctuator) (item : Parser α) : Nat → Parser (List α)
  | 0 => unexpected
  | n + 1 => do
    if ← mark? close then return []
    else
      let x ← item
      return x :: (← itemsUntil close item n)

def tokensLeft : Parser Nat := do return (← get).tokens.length

/-- Any number of items between two marks. -/
def anyBetween (opening close : Punctuator) (item : Parser α) : Parser (List α) := do
  mark opening
  itemsUntil close item ((← tokensLeft) + 1)

/-- One or more items between two marks. -/
def manyBetween (opening close : Punctuator) (item : Parser α) : Parser (List α) := do
  mark opening
  let x ← item
  return x :: (← itemsUntil close item ((← tokensLeft) + 1))

/-- Nothing, or one or more items between two marks. -/
def optionalBetween (opening close : Punctuator) (item : Parser α) : Parser (List α) := do
  if ← at? opening then manyBetween opening close item else return []

def itemsAfter (separator : Punctuator) (item : Parser α) : Nat → Parser (List α)
  | 0 => unexpected
  | n + 1 => do
    if ← mark? separator then
      let x ← item
      return x :: (← itemsAfter separator item n)
    else return []

/-- One or more items with separators between them, and perhaps one before the first. -/
def separated (separator : Punctuator) (item : Parser α) : Parser (List α) := do
  let _ ← mark? separator
  let x ← item
  return x :: (← itemsAfter separator item ((← tokensLeft) + 1))

/-- Items as long as a mark announces them. -/
def itemsWhile (announcing : Punctuator) (item : Parser α) : Nat → Parser (List α)
  | 0 => unexpected
  | n + 1 => do
    if ← at? announcing then
      let x ← item
      return x :: (← itemsWhile announcing item n)
    else return []

def itemsToEnd (item : Parser α) : Nat → Parser (List α)
  | 0 => unexpected
  | n + 1 => do
    if (← peek).isNone then return []
    else
      let x ← item
      return x :: (← itemsToEnd item n)

end Parser

end SchemaLoom
