import SchemaLoom.Document.Cursor

/-! Reading a document from its text. -/

namespace SchemaLoom

namespace Place

/-- The places by the names that directive definitions give them. -/
def ofName? : Name → Option Place
  | "QUERY" => some .query
  | "MUTATION" => some .mutation
  | "SUBSCRIPTION" => some .subscription
  | "FIELD" => some .field
  | "FRAGMENT_DEFINITION" => some .fragmentDefinition
  | "FRAGMENT_SPREAD" => some .fragmentSpread
  | "INLINE_FRAGMENT" => some .inlineFragment
  | "VARIABLE_DEFINITION" => some .variableDefinition
  | "SCHEMA" => some .schema
  | "SCALAR" => some .scalar
  | "OBJECT" => some .object
  | "FIELD_DEFINITION" => some .fieldDefinition
  | "ARGUMENT_DEFINITION" => some .argumentDefinition
  | "INTERFACE" => some .interface
  | "UNION" => some .union
  | "ENUM" => some .enum
  | "ENUM_VALUE" => some .enumValue
  | "INPUT_OBJECT" => some .inputObject
  | "INPUT_FIELD_DEFINITION" => some .inputFieldDefinition
  | "DIRECTIVE_DEFINITION" => some .directiveDefinition
  | _ => none

end Place

namespace Operation

def ofName? : Name → Option Operation
  | "query" => some .query
  | "mutation" => some .mutation
  | "subscription" => some .subscription
  | _ => none

end Operation

namespace Parser

/-- The value that a name stands for. -/
def namedLiteral : Name → Literal
  | "true" => .boolean true
  | "false" => .boolean false
  | "null" => .null
  | word => .enum word

/-- A variable is no value where the value has to be constant. -/
def rejectVariable (start : Nat) (found : Option Lexeme) : Parser Literal := do
  match ← peekLexeme with
  | some (.name text) => failAt start (.unexpectedVariable text)
  | _ => failAt start (.unexpected found)

def variableLiteral (constant : Bool) : Parser Literal := do
  let start ← position
  let found ← peekLexeme
  mark .dollar
  if constant then rejectVariable start found else return .var (← name)

/-- How many lists, objects and selections may lie within each other, and how many lists a type
may be made of. -/
def maxNesting : Nat := 200

def tooDeep : Parser α := do failAt (← position) .nestedTooDeeply

def objectField (value : Parser Literal) : Parser (Name × Literal) := do
  let field ← name
  mark .colon
  return (field, ← value)

/-- A list or an object, with values of the given form in it. -/
def compound (value : Parser Literal) : Parser Literal := do
  if ← at? .bracketL then return .list (← anyBetween .bracketL .bracketR value)
  else return .object (← anyBetween .braceL .braceR (objectField value))

/-- A value, lists and objects being read as given. -/
def literalWith (constant : Bool) (nested : Parser Literal) : Parser Literal := do
  match ← peekLexeme with
  | some (.punctuator .bracketL) => nested
  | some (.punctuator .braceL) => nested
  | some (.punctuator .dollar) => variableLiteral constant
  | some (.int text) => do advance; return .int text
  | some (.float text) => do advance; return .float text
  | some (.string text) => do advance; return .string ⟨text, false⟩
  | some (.blockString text) => do advance; return .string ⟨text, true⟩
  | some (.name text) => do advance; return namedLiteral text
  | _ => unexpected

/-- A value that may be nested so many times. -/
def literalWithin (constant : Bool) : Nat → Parser Literal
  | 0 => literalWith constant tooDeep
  | n + 1 => literalWith constant (compound (literalWithin constant n))

def literal : Parser Literal := literalWithin true maxNesting

/-- A type that may be nested less than so many times. -/
def typeRefWithin : Nat → Parser TypeRef
  | 0 => tooDeep
  | n + 1 => do
    let inner ← (do
      if ← mark? .bracketL then
        let item ← typeRefWithin n
        mark .bracketR
        return .list item
      else return .named (← name))
    if ← mark? .bang then return .nonNull inner else return inner

def typeRef : Parser TypeRef := typeRefWithin (maxNesting + 1)

def argument (value : Parser Literal) : Parser Argument := do
  let argument ← name
  mark .colon
  let start ← position
  let value ← value
  return ⟨argument, value, ← locate start⟩

def arguments (value : Parser Literal) : Parser (List Argument) :=
  optionalBetween .parenL .parenR (argument value)

def directive (value : Parser Literal) : Parser Directive := do
  let start ← position
  mark .atSign
  let directive ← name
  let args ← arguments value
  return ⟨directive, args, ← locate start⟩

/-- Directives whose arguments have values of the given form. -/
def directivesWith (value : Parser Literal) : Parser (List Directive) := do
  itemsWhile .atSign (directive value) ((← tokensLeft) + 1)

def directives (constant : Bool) : Parser (List Directive) :=
  directivesWith (literalWithin constant maxNesting)

def default? : Parser (Option Literal) := do
  if ← mark? .equals then return some (← literal) else return none

def description? : Parser (Option StringLiteral) := do
  match ← peekLexeme with
  | some (.string text) => do advance; return some ⟨text, false⟩
  | some (.blockString text) => do advance; return some ⟨text, true⟩
  | _ => return none

def variableDefinition : Parser VariableDefinition := do
  let description ← description?
  mark .dollar
  let variableName ← name
  mark .colon
  let type ← typeRef
  let default ← default?
  return ⟨description, variableName, type, default, ← directives true⟩

def fragmentName : Parser Name := do
  if (← peekLexeme).bind Lexeme.text? = some "on" then unexpected else name

/-- A field or a fragment, with values and selections of the given forms in it. -/
def selectionWith (value : Parser Literal) (inner : Parser (List Selection)) :
    Parser Selection := do
  if ← mark? .spread then
    if ← keyword? "on" then
      let condition ← name
      let dirs ← directivesWith value
      return .inline (some condition) dirs (← inner)
    else
      match ← peekLexeme with
      | some (.name _) =>
        let spread ← fragmentName
        return .spread spread (← directivesWith value)
      | _ =>
        let dirs ← directivesWith value
        return .inline none dirs (← inner)
  else
    let first ← name
    let (label, field) ← (do
      if ← mark? .colon then return (some first, ← name) else return (none, first))
    let args ← arguments value
    let dirs ← directivesWith value
    return .field label field args dirs (← (do if ← at? .braceL then inner else return []))

/-- The fields and fragments between two braces. They and the values in them may be nested so many
times. -/
def selectionsWithin : Nat → Parser (List Selection)
  | 0 => tooDeep
  | n + 1 =>
    manyBetween .braceL .braceR (selectionWith (literalWithin false n) (selectionsWithin n))

def selections : Parser (List Selection) := selectionsWithin maxNesting

def operation : Parser Operation := do
  let start ← position
  let word ← name
  match Operation.ofName? word with
  | some operation => return operation
  | none => failAt start (.unexpected (some (.name word)))

def operationDefinition : Parser Definition := do
  let start ← position
  if ← at? .braceL then
    let sels ← selections
    return .operation ⟨none, .query, none, [], [], sels, ← locate start⟩
  else
    let description ← description?
    let op ← operation
    let opName ← (do
      match ← peekLexeme with
      | some (.name _) => return some (← name)
      | _ => return none)
    let parameters ← optionalBetween .parenL .parenR variableDefinition
    let dirs ← directives false
    let sels ← selections
    return .operation ⟨description, op, opName, parameters, dirs, sels, ← locate start⟩

def fragmentDefinition : Parser Definition := do
  let start ← position
  let description ← description?
  keyword "fragment"
  let fragment ← fragmentName
  keyword "on"
  let condition ← name
  let dirs ← directives false
  let sels ← selections
  return .fragment ⟨description, fragment, condition, dirs, sels, ← locate start⟩

def operationType : Parser OperationType := do
  let op ← operation
  mark .colon
  return ⟨op, ← name⟩

def inputValueDefinition : Parser InputValueDefinition := do
  let description ← description?
  let valueName ← name
  mark .colon
  let type ← typeRef
  let default ← default?
  return ⟨description, valueName, type, default, ← directives true⟩

def argumentDefinitions : Parser (List InputValueDefinition) :=
  optionalBetween .parenL .parenR inputValueDefinition

def fieldDefinition : Parser FieldDefinition := do
  let description ← description?
  let field ← name
  let args ← argumentDefinitions
  mark .colon
  let type ← typeRef
  return ⟨description, field, args, type, none, ← directives true⟩

def inputFieldDefinition : Parser FieldDefinition := do
  let value ← inputValueDefinition
  return ⟨value.description, value.name, [], value.type, value.default, value.directives⟩

def fieldDefinitions : Parser (List FieldDefinition) :=
  optionalBetween .braceL .braceR fieldDefinition

def interfaces : Parser (List Name) := do
  if ← keyword? "implements" then separated .amp name else return []

def members : Parser (List Name) := do
  if ← mark? .equals then separated .pipe name else return []

/-- The texts that no enum value may be named by. -/
def reservedNames : List String := ["true", "false", "null"]

/-- A reserved text is told apart even if it stands in quotes. -/
def enumValueName : Parser Name := do
  match ← peekLexeme with
  | some lexeme =>
    if lexeme.text?.any reservedNames.contains then
      failAt (← position) (.reservedEnumValue lexeme)
    else name
  | none => name

def enumValueDefinition : Parser EnumValueDefinition := do
  let description ← description?
  let value ← enumValueName
  return ⟨description, value, ← directives true⟩

def typeKeyword? : Name → Option TypeKind
  | "scalar" => some .scalar
  | "type" => some .object
  | "interface" => some .interface
  | "union" => some .union
  | "enum" => some .enum
  | "input" => some .inputObject
  | _ => none

/-- What follows the name of a type: its directives and its other parts. -/
def typeParts : TypeKind → Parser (List Directive × TypeBody)
  | .scalar => do return (← directives true, .scalar)
  | .object => do
    let implemented ← interfaces
    let dirs ← directives true
    return (dirs, .object implemented (← fieldDefinitions))
  | .interface => do
    let implemented ← interfaces
    let dirs ← directives true
    return (dirs, .interface implemented (← fieldDefinitions))
  | .union => do
    let dirs ← directives true
    return (dirs, .union (← members))
  | .enum => do
    let dirs ← directives true
    return (dirs, .enum (← optionalBetween .braceL .braceR enumValueDefinition))
  | .inputObject => do
    let dirs ← directives true
    return (dirs, .inputObject (← optionalBetween .braceL .braceR inputFieldDefinition))

def typeDefinition (kind : TypeKind) : Parser Definition := do
  let start ← position
  let description ← description?
  advance
  let typeName ← name
  let (dirs, body) ← typeParts kind
  return .type ⟨description, typeName, dirs, body, ← locate start⟩

/-- Whether a type body has no part at all. -/
def isBare : TypeBody → Bool
  | .scalar => true
  | .object implemented fields => implemented.isEmpty && fields.isEmpty
  | .interface implemented fields => implemented.isEmpty && fields.isEmpty
  | .union members => members.isEmpty
  | .enum values => values.isEmpty
  | .inputObject fields => fields.isEmpty

/-- An extension has to extend something. -/
def typeExtension (kind : TypeKind) : Parser Definition := do
  let start ← position
  advance
  advance
  let typeName ← name
  let (dirs, body) ← typeParts kind
  if dirs.isEmpty && isBare body then unexpected
  return .typeExtension ⟨none, typeName, dirs, body, ← locate start⟩

def schemaDefinition : Parser Definition := do
  let start ← position
  let description ← description?
  keyword "schema"
  let dirs ← directives true
  let types ← manyBetween .braceL .braceR operationType
  return .schema ⟨description, dirs, types, ← locate start⟩

def schemaExtension : Parser Definition := do
  let start ← position
  keyword "extend"
  keyword "schema"
  let dirs ← directives true
  let types ← optionalBetween .braceL .braceR operationType
  if dirs.isEmpty && types.isEmpty then unexpected
  return .schemaExtension ⟨none, dirs, types, ← locate start⟩

def place : Parser Place := do
  let start ← position
  let word ← name
  match Place.ofName? word with
  | some place => return place
  | none => failAt start (.unexpected (some (.name word)))

def directiveDefinition : Parser Definition := do
  let start ← position
  let description ← description?
  keyword "directive"
  mark .atSign
  let directive ← name
  let args ← argumentDefinitions
  let repeatable ← keyword? "repeatable"
  keyword "on"
  let places ← separated .pipe place
  return .directive ⟨description, directive, args, repeatable, places, ← locate start⟩

def unexpectedToken (token : Option Token) : Parser α := do
  let finish := endPosition (← get).ending
  failAt ((token.map Token.start).getD finish) (.unexpected (token.map Token.lexeme))

def extension : Parser Definition := do
  let second ← peekSecond
  match second.map Token.lexeme with
  | some (.name "schema") => schemaExtension
  | some (.name word) =>
    match typeKeyword? word with
    | some kind => typeExtension kind
    | none => unexpectedToken second
  | _ => unexpectedToken second

/-- The definitions that may have a description, by their keyword. -/
def described? (word : Name) : Option (Parser Definition) :=
  match word with
  | "schema" => some schemaDefinition
  | "directive" => some directiveDefinition
  | "fragment" => some fragmentDefinition
  | word =>
    match Operation.ofName? word with
    | some _ => some operationDefinition
    | none => (typeKeyword? word).map typeDefinition

def isDescription : Option Lexeme → Bool
  | some (.string _) => true
  | some (.blockString _) => true
  | _ => false

def definition : Parser Definition := do
  if ← at? .braceL then operationDefinition
  else
    let hasDescription := isDescription (← peekLexeme)
    let keywordToken ← if hasDescription then peekSecond else peek
    match keywordToken.map Token.lexeme with
    | some (.punctuator .braceL) => failAt (← position) .describedShorthand
    | some (.name word) =>
      match described? word with
      | some parser => parser
      | none =>
        if hasDescription then failAt (← position) .unexpectedDescription
        else if word = "extend" then extension
        else unexpectedToken keywordToken
    | _ => unexpectedToken keywordToken

/-- A document has at least one definition. -/
def document : Parser Document := do
  checkEnding (← get).tokens (← get).ending
  let first ← definition
  return ⟨first :: (← itemsToEnd definition ((← tokensLeft) + 1))⟩

end Parser

/-- Read a document from its text. Nodes get locations if `located` is set. -/
def Document.parse (body : String) (located : Bool) : Except SyntaxError Document :=
  let lexed := lex body.toList
  (Parser.document.run' ⟨lexed.tokens, lexed.ending, 0, if located then some body else none⟩)

end SchemaLoom
