import SchemaLoom.Document.Tree
import SchemaLoom.Text.Lines
import SchemaLoom.Text.Quoted

/-! Writing syntax trees as text. -/

namespace SchemaLoom

/-- The texts that are not empty, with a separator between them. -/
def joinParts (separator : String) (parts : List String) : String :=
  String.intercalate separator (parts.filter (· ≠ ""))

/-- A text between two others, or nothing if it is empty. -/
def wrap (before text : String) (after : String) : String :=
  if text = "" then "" else before ++ text ++ after

def indentRest (text : String) : String :=
  String.join (text.toList.map fun c => if c = '\n' then "\n  " else String.singleton c)

def indent (text : String) : String := wrap "  " (indentRest text) ""

def braced (items : List String) : String :=
  wrap "\x7b\n" (indent (joinParts "\n" items)) "\n\x7d"

def inParens (items : List String) : String := wrap "(" (joinParts ", " items) ")"

def inTallParens (items : List String) : String :=
  wrap "(\n" (indent (joinParts "\n" items)) "\n)"

/-- A character of a string literal. Control characters are escaped. -/
def stringChar (c : Char) : List Char :=
  if c = '"' then ['\\', '"']
  else if c = '\\' then ['\\', '\\']
  else if c = '\x08' then ['\\', 'b']
  else if c = '\t' then ['\\', 't']
  else if c = '\n' then ['\\', 'n']
  else if c = '\x0c' then ['\\', 'f']
  else if c = '\r' then ['\\', 'r']
  else if c.toNat < 0x20 ∨ (0x7f ≤ c.toNat ∧ c.toNat < 0xa0) then
    '\\' :: 'u' :: (hexDigits 4 c.toNat).map Char.toUpper
  else [c]

def quotedString (text : String) : String :=
  String.ofList ('"' :: text.toList.flatMap stringChar ++ ['"'])

/-- Three quotes within a block string are escaped. -/
def escapeBlock : List Char → List Char
  | '"' :: '"' :: '"' :: rest => '\\' :: '"' :: '"' :: '"' :: escapeBlock rest
  | c :: rest => c :: escapeBlock rest
  | [] => []

def startsIndented (line : List Char) : Bool := line.head?.any fun c => c == ' ' || c == '\t'

/-- A block string has its quotes on lines of their own if it is long, has several lines, or ends
with a character that could be taken for a part of the closing quotes. -/
def blockString (text : String) : String :=
  let value := text.toList
  let escaped := escapeBlock value
  let lines := splitLines escaped
  let single := lines.length ≤ 1
  let indented := !single && (lines.drop 1).all fun line => line.isEmpty || startsIndented line
  let tripleEnd := ['\\', '"', '"', '"'].isSuffixOf escaped
  let openEnd := (value.getLast? = some '"' && !tripleEnd) || value.getLast? = some '\\'
  let tall := !single || value.length > 70 || openEnd || indented || tripleEnd
  let before := if (tall && !(single && startsIndented value)) || indented then "\n" else ""
  let after := if tall || openEnd then "\n" else ""
  "\"\"\"" ++ before ++ String.ofList escaped ++ after ++ "\"\"\""

def StringLiteral.print (s : StringLiteral) : String :=
  if s.block then blockString s.text else quotedString s.text

mutual

def Literal.print : Literal → String
  | .var name => "$" ++ name
  | .int digits => digits
  | .float digits => digits
  | .string value => value.print
  | .boolean value => if value then "true" else "false"
  | .null => "null"
  | .enum name => name
  | .list items => "[" ++ joinParts ", " (printItems items) ++ "]"
  | .object fields => "\x7b" ++ joinParts ", " (printFields fields) ++ "\x7d"

def printItems : List Literal → List String
  | [] => []
  | item :: items => item.print :: printItems items

def printFields : List (Name × Literal) → List String
  | [] => []
  | (name, value) :: fields => (name ++ ": " ++ value.print) :: printFields fields

end

def TypeRef.print : TypeRef → String
  | .named name => name
  | .list item => "[" ++ item.print ++ "]"
  | .nonNull item => item.print ++ "!"

def Argument.print (a : Argument) : String := a.name ++ ": " ++ a.value.print

def Directive.print (d : Directive) : String :=
  "@" ++ d.name ++ inParens (d.arguments.map Argument.print)

def printDirectives (ds : List Directive) : String := joinParts " " (ds.map Directive.print)

def Operation.name : Operation → Name
  | .query => "query"
  | .mutation => "mutation"
  | .subscription => "subscription"

def printDefault (default : Option Literal) : String :=
  match default with
  | none => ""
  | some value => " = " ++ value.print

def printDescription (description : Option StringLiteral) : String :=
  match description with
  | none => ""
  | some text => text.print ++ "\n"

def VariableDefinition.print (v : VariableDefinition) : String :=
  printDescription v.description ++ "$" ++ v.name ++ ": " ++ v.type.print ++ printDefault v.default
    ++ wrap " " (printDirectives v.directives) ""

/-- Arguments of a field go on lines of their own where the line would be longer than this. -/
def maxLineLength : Nat := 80

def printFieldHead (label : Option Name) (name : Name) (arguments : List Argument) : String :=
  let start := wrap "" (label.getD "") ": " ++ name
  let args := arguments.map Argument.print
  let line := start ++ inParens args
  if line.length > maxLineLength then start ++ inTallParens args else line

mutual

def Selection.print : Selection → String
  | .field label name arguments directives selections =>
    joinParts " " [printFieldHead label name arguments, printDirectives directives,
      braced (printSelections selections)]
  | .spread name directives => "..." ++ name ++ wrap " " (printDirectives directives) ""
  | .inline condition directives selections =>
    joinParts " " ["...", wrap "on " (condition.getD "") "", printDirectives directives,
      braced (printSelections selections)]

def printSelections : List Selection → List String
  | [] => []
  | s :: rest => s.print :: printSelections rest

end

/-- Variables go on lines of their own where one of them takes several lines. -/
def printVariables (parameters : List VariableDefinition) : String :=
  let vars := parameters.map VariableDefinition.print
  if vars.any (·.contains '\n') then wrap "(\n" (joinParts "\n" vars) "\n)" else inParens vars

def OperationDefinition.print (d : OperationDefinition) : String :=
  let head := printDescription d.description ++ joinParts " "
    [d.operation.name, joinParts "" [d.name.getD "", printVariables d.parameters],
      printDirectives d.directives]
  (if head = "query" then "" else head ++ " ") ++ braced (printSelections d.selections)

def FragmentDefinition.print (d : FragmentDefinition) : String :=
  printDescription d.description ++ "fragment " ++ d.name ++ " on " ++ d.condition ++ " "
    ++ wrap "" (printDirectives d.directives) " " ++ braced (printSelections d.selections)

def InputValueDefinition.print (d : InputValueDefinition) : String :=
  printDescription d.description ++ d.name ++ ": " ++ d.type.print ++ printDefault d.default
    ++ wrap " " (printDirectives d.directives) ""

/-- Arguments go on lines of their own where one of them takes several lines. -/
def printArguments (arguments : List InputValueDefinition) : String :=
  let args := arguments.map InputValueDefinition.print
  if args.any (·.contains '\n') then inTallParens args else inParens args

def FieldDefinition.print (d : FieldDefinition) : String :=
  printDescription d.description ++ d.name ++ printArguments d.arguments ++ ": " ++ d.type.print
    ++ printDefault d.default ++ wrap " " (printDirectives d.directives) ""

def EnumValueDefinition.print (d : EnumValueDefinition) : String :=
  printDescription d.description ++ joinParts " " [d.name, printDirectives d.directives]

def OperationType.print (t : OperationType) : String := t.operation.name ++ ": " ++ t.type

def SchemaDefinition.print (keyword : String) (d : SchemaDefinition) : String :=
  printDescription d.description ++ joinParts " "
    [keyword, printDirectives d.directives, braced (d.operationTypes.map OperationType.print)]

def TypeKind.keyword : TypeKind → String
  | .scalar => "scalar"
  | .object => "type"
  | .interface => "interface"
  | .union => "union"
  | .enum => "enum"
  | .inputObject => "input"

def printInterfaces (names : List Name) : String := wrap "implements " (joinParts " & " names) ""

def TypeDefinition.print (keyword : String) (d : TypeDefinition) : String :=
  let dirs := printDirectives d.directives
  let parts :=
    match d.body with
    | .scalar => [dirs]
    | .object interfaces fields =>
      [printInterfaces interfaces, dirs, braced (fields.map FieldDefinition.print)]
    | .interface interfaces fields =>
      [printInterfaces interfaces, dirs, braced (fields.map FieldDefinition.print)]
    | .union members => [dirs, wrap "= " (joinParts " | " members) ""]
    | .enum values => [dirs, braced (values.map EnumValueDefinition.print)]
    | .inputObject fields => [dirs, braced (fields.map FieldDefinition.print)]
  printDescription d.description ++ joinParts " " (keyword :: d.name :: parts)

def Place.name : Place → Name
  | .query => "QUERY"
  | .mutation => "MUTATION"
  | .subscription => "SUBSCRIPTION"
  | .field => "FIELD"
  | .fragmentDefinition => "FRAGMENT_DEFINITION"
  | .fragmentSpread => "FRAGMENT_SPREAD"
  | .inlineFragment => "INLINE_FRAGMENT"
  | .variableDefinition => "VARIABLE_DEFINITION"
  | .schema => "SCHEMA"
  | .scalar => "SCALAR"
  | .object => "OBJECT"
  | .fieldDefinition => "FIELD_DEFINITION"
  | .argumentDefinition => "ARGUMENT_DEFINITION"
  | .interface => "INTERFACE"
  | .union => "UNION"
  | .enum => "ENUM"
  | .enumValue => "ENUM_VALUE"
  | .inputObject => "INPUT_OBJECT"
  | .inputFieldDefinition => "INPUT_FIELD_DEFINITION"
  | .directiveDefinition => "DIRECTIVE_DEFINITION"

def DirectiveDefinition.print (d : DirectiveDefinition) : String :=
  printDescription d.description ++ "directive @" ++ d.name ++ printArguments d.arguments
    ++ (if d.repeatable then " repeatable" else "") ++ " on "
    ++ joinParts " | " (d.places.map Place.name)

def Definition.print : Definition → String
  | .operation d => d.print
  | .fragment d => d.print
  | .schema d => d.print "schema"
  | .schemaExtension d => d.print "extend schema"
  | .type d => d.print d.kind.keyword
  | .typeExtension d => d.print ("extend " ++ d.kind.keyword)
  | .directive d => d.print

def Document.print (d : Document) : String :=
  joinParts "\n\n" (d.definitions.map Definition.print)

end SchemaLoom
