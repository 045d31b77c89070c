import SchemaLoom.Document.Token

/-! Splitting the text of a document into tokens. -/

namespace SchemaLoom

/-- How a text ends: with its last token, or with the first fault in it. -/
inductive Ending where
  | finished (position : Nat)
  | faulty (error : SyntaxError)
deriving DecidableEq

/-- The tokens of a text up to its end or its first fault. -/
structure Lexed where
  tokens : List Token
  ending : Ending
deriving DecidableEq

def Lexed.cons (token : Token) (rest : Lexed) : Lexed := ⟨token :: rest.tokens, rest.ending⟩

def isIgnored (c : Char) : Bool := [' ', '\t', ',', '\n', '\r', '\ufeff'].contains c

def isNameStart (c : Char) : Bool := c.isAlpha || c == '_'

def isNameContinue (c : Char) : Bool := c.isAlphanum || c == '_'

/-- The punctuators that are one character long. -/
def punctuator? : Char → Option Punctuator
  | '!' => some .bang
  | '$' => some .dollar
  | '&' => some .amp
  | '(' => some .parenL
  | ')' => some .parenR
  | ':' => some .colon
  | '=' => some .equals
  | '@' => some .atSign
  | '[' => some .bracketL
  | ']' => some .bracketR
  | '{' => some .braceL
  | '|' => some .pipe
  | '}' => some .braceR
  | _ => none

def hexValue? (c : Char) : Option Nat :=
  if c.isDigit then some (c.toNat - '0'.toNat)
  else if 'a' ≤ c ∧ c ≤ 'f' then some (c.toNat - 'a'.toNat + 10)
  else if 'A' ≤ c ∧ c ≤ 'F' then some (c.toNat - 'A'.toNat + 10)
  else none

def hexNumber? (digits : List Char) : Option Nat :=
  digits.foldl (fun n c => do return 16 * (← n) + (← hexValue? c)) (some 0)

def isScalarValue (n : Nat) : Bool := n < 0xd800 || (0xe000 ≤ n && n ≤ 0x10ffff)

def isLeadingSurrogate (n : Nat) : Bool := 0xd800 ≤ n && n < 0xdc00

def isTrailingSurrogate (n : Nat) : Bool := 0xdc00 ≤ n && n < 0xe000

/-- An escape sequence read: the character it stands for and the length of the sequence, which
includes the backslash. -/
abbrev Escape := Except SyntaxFault (Char × Nat)

def badUnicode (sequence : List Char) : SyntaxFault := .badUnicodeEscape (String.ofList sequence)

/-- The end of an escape in braces, `size` characters of which are read and gave the number `point`.
`sequence` is the text from the backslash on. -/
def bracedEscape (sequence : List Char) (point size : Nat) : List Char → Escape
  | [] => .error (badUnicode (sequence.take size))
  | c :: rest =>
    if c = '}' then
      if size ≥ 4 ∧ isScalarValue point then .ok (Char.ofNat point, size + 1)
      else .error (badUnicode (sequence.take (size + 1)))
    else
      match hexValue? c with
      | none => .error (badUnicode (sequence.take (size + 1)))
      | some digit => bracedEscape sequence (16 * point + digit) (size + 1) rest

/-- The number that four hexadecimal digits at the start of a text stand for. -/
def fourDigits? (text : List Char) : Option Nat :=
  if text.length < 4 then none else hexNumber? (text.take 4)

/-- An escape with four hexadecimal digits, of which two make a character above U+FFFF. -/
def fixedEscape (digits : List Char) : Escape :=
  let bad := badUnicode ('\\' :: 'u' :: digits.take 4)
  match fourDigits? digits with
  | none => .error bad
  | some code =>
    if isScalarValue code then .ok (Char.ofNat code, 6)
    else if isLeadingSurrogate code then
      match digits.drop 4 with
      | '\\' :: 'u' :: more =>
        match fourDigits? more with
        | none => .error bad
        | some trail =>
          if isTrailingSurrogate trail then
            .ok (Char.ofNat (0x10000 + 0x400 * (code - 0xd800) + (trail - 0xdc00)), 12)
          else .error bad
      | _ => .error bad
    else .error bad

def simpleEscape? : Char → Option Char
  | '"' => some '"'
  | '/' => some '/'
  | '\\' => some '\\'
  | 'b' => some '\x08'
  | 'f' => some '\x0c'
  | 'n' => some '\n'
  | 'r' => some '\r'
  | 't' => some '\t'
  | _ => none

/-- The escape sequence whose backslash stands before the given text. A braced one has at most
nine characters between its opening brace and its end. -/
def escape : List Char → Escape
  | [] => .error (.badEscape "\\")
  | 'u' :: '{' :: rest => bracedEscape ('\\' :: 'u' :: '{' :: rest) 0 3 (rest.take 9)
  | 'u' :: rest => fixedEscape rest
  | c :: _ =>
    match simpleEscape? c with
    | some e => .ok (e, 2)
    | none => .error (.badEscape (String.ofList ['\\', c]))

/-- The value and the length of a string literal, or a fault with its distance from the start. -/
abbrev StringScan := Except SyntaxError (List Char × Nat)

def StringScan.push (value : List Char) : StringScan → StringScan
  | .ok (text, size) => .ok (value ++ text, size)
  | .error e => .error e

/-- The rest of a string literal of which `size` characters are read. -/
def stringBody (size : Nat) : List Char → StringScan
  | [] => .error ⟨.unterminatedString, size⟩
  | c :: rest =>
    if c = '"' then .ok ([], size + 1)
    else if isNewline c then .error ⟨.unterminatedString, size⟩
    else if c = '\\' then
      match escape rest with
      | .error fault => .error ⟨fault, size⟩
      | .ok (value, length) =>
        (stringBody (size + length) (rest.drop (length - 1))).push [value]
    else (stringBody (size + 1) rest).push [c]
termination_by text => text.length
decreasing_by all_goals simp only [List.length_drop, List.length_cons]; omega

/-- The rest of a block string of which `size` characters are read, its text taken as it stands. -/
def blockBody (size : Nat) : List Char → StringScan
  | [] => .error ⟨.unterminatedString, size⟩
  | '"' :: '"' :: '"' :: _ => .ok ([], size + 3)
  | '\\' :: '"' :: '"' :: '"' :: rest => (blockBody (size + 4) rest).push ['"', '"', '"']
  | c :: rest => (blockBody (size + 1) rest).push [c]

def isIndent (c : Char) : Bool := c == ' ' || c == '\t'

def isBlankLine (line : List Char) : Bool := line.all isIndent

def indentOf (line : List Char) : Nat := (line.takeWhile isIndent).length

/-- The indentation that the lines after the first share, blank ones apart. -/
def commonIndent (lines : List (List Char)) : Nat :=
  (((lines.drop 1).filter (!isBlankLine ·)).map indentOf).min?.getD 0

/-- The value of a block string: without common indentation and without blank lines around it. -/
def dedent (text : List Char) : List Char :=
  let lines := splitLines text
  let indent := commonIndent lines
  let dedented := lines.take 1 ++ (lines.drop 1).map (List.drop indent)
  let body := (lines.zip dedented).dropWhile (isBlankLine ·.1)
  let body := (body.reverse.dropWhile (isBlankLine ·.1)).reverse
  joinLines (body.map (·.2))

/-- What stands at the start of a text. Numbers count the further characters that belong to it. -/
inductive Scan where
  | ignored (more : Nat)
  | token (lexeme : Lexeme) (more : Nat)
  | fault (error : SyntaxError)

def StringScan.token (lexeme : List Char → Lexeme) : StringScan → Scan
  | .ok (value, size) => .token (lexeme value) (size - 1)
  | .error e => .fault e

/-- The string literal whose opening quote stands before the given text. -/
def scanString (text : List Char) : Scan :=
  match text with
  | '"' :: '"' :: rest =>
    StringScan.token (fun value => .blockString (String.ofList (dedent value))) (blockBody 3 rest)
  | _ => StringScan.token (fun value => .string (String.ofList value)) (stringBody 1 text)

/-- The digits at the start of a text, of which `size` characters stand before it: how many
characters are read then, and what follows them. -/
def digits (size : Nat) (text : List Char) : Except SyntaxError (Nat × List Char) :=
  match text.takeWhile Char.isDigit with
  | [] => .error ⟨.digitExpected text.head?, size⟩
  | run => .ok (size + run.length, text.dropWhile Char.isDigit)

/-- No digit may follow a leading zero. -/
def integerPart (size : Nat) : List Char → Except SyntaxError (Nat × List Char)
  | '0' :: rest =>
    match rest.head? with
    | some c =>
      if c.isDigit then .error ⟨.digitAfterZero (some c), size + 1⟩ else .ok (size + 1, rest)
    | none => .ok (size + 1, rest)
  | text => digits size text

def fractionPart (size : Nat) : List Char → Except SyntaxError (Nat × List Char)
  | '.' :: rest => digits (size + 1) rest
  | text => .ok (size, text)

def exponentPart (size : Nat) : List Char → Except SyntaxError (Nat × List Char)
  | c :: rest =>
    if c = 'e' ∨ c = 'E' then
      match rest with
      | '+' :: rest => digits (size + 2) rest
      | '-' :: rest => digits (size + 2) rest
      | _ => digits (size + 1) rest
    else .ok (size, c :: rest)
  | [] => .ok (size, [])

/-- A number may not run into a name or a full stop. -/
def numberEnd (size : Nat) (text : List Char) : Except SyntaxError Unit :=
  match text.head? with
  | some c => if c = '.' ∨ isNameStart c then .error ⟨.digitExpected (some c), size⟩ else .ok ()
  | none => .ok ()

def number (text : List Char) : Except SyntaxError (Lexeme × Nat) := do
  let (size, rest) := if text.head? = some '-' then (1, text.drop 1) else (0, text)
  let (whole, rest) ← integerPart size rest
  let (size, rest) ← fractionPart whole rest
  let (size, rest) ← exponentPart size rest
  numberEnd size rest
  let digits := String.ofList (text.take size)
  return (if size = whole then .int digits else .float digits, size)

def scanNumber (text : List Char) : Scan :=
  match number text with
  | .ok (lexeme, size) => .token lexeme (size - 1)
  | .error e => .fault e

/-- What begins with the character `c` and goes on with the text `rest`. -/
def scan (c : Char) (rest : List Char) : Scan :=
  if isIgnored c then .ignored 0
  else if c = '#' then .ignored (rest.takeWhile (!isNewline ·)).length
  else
    match punctuator? c with
    | some mark => .token (.punctuator mark) 0
    | none =>
      if c = '"' then scanString rest
      else if c.isDigit || c = '-' then scanNumber (c :: rest)
      else if isNameStart c then
        let more := rest.takeWhile isNameContinue
        .token (.name (String.ofList (c :: more))) more.length
      else if c = '.' ∧ rest.take 2 = ['.', '.'] then .token (.punctuator .spread) 2
      else if c = '\'' then .fault ⟨.singleQuote, 0⟩
      else .fault ⟨.unexpectedCharacter c, 0⟩

/-- The tokens of a text that stands at a position. -/
def lexFrom (position : Nat) : List Char → Lexed
  | [] => ⟨[], .finished position⟩
  | c :: rest =>
    match scan c rest with
    | .ignored more => lexFrom (position + (1 + more)) (rest.drop more)
    | .token lexeme more =>
      let stop := position + (1 + more)
      (lexFrom stop (rest.drop more)).cons ⟨lexeme, position, stop⟩
    | .fault e => ⟨[], .faulty ⟨e.fault, position + e.position⟩⟩
termination_by text => text.length
decreasing_by all_goals simp only [List.length_drop, List.length_cons]; omega

def lex (text : List Char) : Lexed := lexFrom 0 text

end SchemaLoom
