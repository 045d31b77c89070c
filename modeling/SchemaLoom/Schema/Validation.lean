import SchemaLoom.Entries
import SchemaLoom.Merge
import SchemaLoom.Schema.Fault
import SchemaLoom.Schema.Standard

/-! The rules that a document has to keep to define a schema. Each definition is looked at with the
whole document and with the definitions before it. -/

namespace SchemaLoom

namespace Definition

def typeDefined? : Definition → Option TypeDefinition
  | .type d => some d
  | _ => none

/-- The type that a definition defines or extends, with what it gives to that type. -/
def typePart? : Definition → Option TypeDefinition
  | .type d => some d
  | .typeExtension d => some d
  | _ => none

def typeExtended? : Definition → Option TypeDefinition
  | .typeExtension d => some d
  | _ => none

def schemaDefined? : Definition → Option SchemaDefinition
  | .schema d => some d
  | _ => none

def schemaExtended? : Definition → Option SchemaDefinition
  | .schemaExtension d => some d
  | _ => none

/-- What a definition gives to the schema definition. -/
def schemaPart? : Definition → Option SchemaDefinition
  | .schema d => some d
  | .schemaExtension d => some d
  | _ => none

def directiveDefined? : Definition → Option DirectiveDefinition
  | .directive d => some d
  | _ => none

end Definition

namespace Validation

def definedTypeNames (doc : List Definition) : List Name :=
  (doc.filterMap Definition.typeDefined?).map TypeDefinition.name

/-- The definition of a type that counts, the last one. -/
def typeNamed? (doc : List Definition) (name : Name) : Option TypeDefinition :=
  doc.reverse.findSome? fun d => d.typeDefined?.filter (·.name = name)

/-- The definition of a directive that counts. A document may define a standard one anew. -/
def directiveNamed? (doc : List Definition) (name : Name) : Option DirectiveDefinition :=
  (standardDirectives ++ doc.filterMap Definition.directiveDefined?).reverse.find? (·.name = name)

/-- A fault for each name that is known already or came before. -/
def repeats (fault : Name → SchemaFault) (known : List Name) : List Name → List SchemaFault
  | [] => []
  | name :: rest =>
    if known.contains name then fault name :: repeats fault known rest
    else repeats fault (name :: known) rest

/-- One fault for each name that comes more than once. -/
def several (fault : Name → SchemaFault) (names : List Name) : List SchemaFault :=
  (names.eraseDups.filter fun name => names.count name > 1).map fault

/-- A name that stands for a type. Standard types are known in type system definitions only. -/
def typeName (doc : List Definition) (executable : Bool) (name : Name) : List SchemaFault :=
  let standard := if executable then [] else standardTypeNames
  if (standard ++ definedTypeNames doc).contains name then []
  else [.unknownType name (suggestions name (standard ++ definedTypeNames doc))]

mutual

def literal : Literal → List SchemaFault
  | .list items => literals items
  | .object fields => objectFields [] fields
  | _ => []

def literals : List Literal → List SchemaFault
  | [] => []
  | item :: items => literal item ++ literals items

def objectFields (known : List Name) : List (Name × Literal) → List SchemaFault
  | [] => []
  | (name, value) :: rest =>
    (if known.contains name then [.repeatedInputField name] else [])
      ++ literal value ++ objectFields (name :: known) rest

end

/-- The arguments that every use of a directive has to give, with their types. -/
def requiredArguments (d : DirectiveDefinition) : Entries TypeRef :=
  let required := d.arguments.filter fun a => a.type.isNonNull && a.default.isNone
  Entries.ofList (required.map fun a => (a.name, a.type))

/-- The use of a directive at a place. -/
def directive (doc : List Definition) (place : Place) (d : Directive) : List SchemaFault :=
  let given := d.arguments.map Argument.name
  let within := several .repeatedArgument given ++ d.arguments.flatMap fun a => literal a.value
  match directiveNamed? doc d.name with
  | none => .unknownDirective d.name :: within
  | some definition =>
    let known := definition.arguments.map InputValueDefinition.name
    let misplaced :=
      if definition.places.contains place then [] else [.misplacedDirective d.name place]
    let unknown := (given.filter (!known.contains ·)).map fun name =>
      SchemaFault.unknownArgument name d.name (suggestions name known)
    let missing := (requiredArguments definition).filter (!given.contains ·.1)
    misplaced ++ unknown ++ within
      ++ missing.map fun (name, type) => .missingArgument d.name name type

def directives (doc : List Definition) (place : Place) (ds : List Directive) : List SchemaFault :=
  ds.flatMap (directive doc place)

/-- The names of those directives that may be used once only. -/
def uniqueNames (doc : List Definition) (ds : List Directive) : List Name :=
  (ds.map Directive.name).filter fun name => (directiveNamed? doc name).any (!·.repeatable)

/-- Directives used again at one node, or at a node after others that count as the same one. -/
def repeatedDirectives (doc : List Definition) (before ds : List Directive) : List SchemaFault :=
  repeats .repeatedDirective (uniqueNames doc before) (uniqueNames doc ds)

def defaultValue (value : Option Literal) : List SchemaFault := (value.map literal).getD []

def inputValue (doc : List Definition) (d : InputValueDefinition) : List SchemaFault :=
  repeatedDirectives doc [] d.directives ++ typeName doc false d.type.base
    ++ defaultValue d.default ++ directives doc .argumentDefinition d.directives

def field (doc : List Definition) (d : FieldDefinition) : List SchemaFault :=
  repeatedDirectives doc [] d.directives ++ d.arguments.flatMap (inputValue doc)
    ++ typeName doc false d.type.base ++ directives doc .fieldDefinition d.directives

/-- A field of an input type. In an extension it has the place of an argument. -/
def inputField (doc : List Definition) (extension : Bool) (d : FieldDefinition) :
    List SchemaFault :=
  repeatedDirectives doc [] d.directives ++ typeName doc false d.type.base
    ++ defaultValue d.default
    ++ directives doc (if extension then .argumentDefinition else .inputFieldDefinition)
      d.directives

def enumValue (doc : List Definition) (d : EnumValueDefinition) : List SchemaFault :=
  repeatedDirectives doc [] d.directives ++ directives doc .enumValue d.directives

/-- The place of the directives of a type. -/
def typePlace : TypeKind → Place
  | .scalar => .scalar
  | .object => .object
  | .interface => .interface
  | .union => .union
  | .enum => .enum
  | .inputObject => .inputObject

/-- What the definitions before one give to the same type. -/
def partsBefore (before : List Definition) (name : Name) : List TypeDefinition :=
  (before.filterMap Definition.typePart?).filter (·.name = name)

def enumValueNames (d : TypeDefinition) : List Name :=
  match d.body with
  | .enum values => values.map EnumValueDefinition.name
  | _ => []

def fieldNames (d : TypeDefinition) : List Name :=
  (d.body.fields?.getD []).map FieldDefinition.name

/-- The arguments of one field, or of one directive. -/
def argumentNames (owner : String) (arguments : List InputValueDefinition) : List SchemaFault :=
  several (.severalArgumentDefinitions owner) (arguments.map InputValueDefinition.name)

/-- An extension has to be of the same kind as the type that it extends. -/
def extended (doc : List Definition) (d : TypeDefinition) : List SchemaFault :=
  match typeNamed? doc d.name with
  | some definition =>
    if definition.kind = d.kind then [] else [.otherKindExtended d.kind d.name]
  | none => [.unknownTypeExtended d.name (suggestions d.name (definedTypeNames doc))]

/-- A type as a whole, besides what is within it. -/
def typeHead (doc before : List Definition) (extension : Bool) (d : TypeDefinition) :
    List SchemaFault :=
  let parts := partsBefore before d.name
  let again := !extension && (definedTypeNames before).contains d.name
  (if again then [.severalTypes d.name] else [])
    ++ repeats (.severalEnumValues d.name) (parts.flatMap enumValueNames) (enumValueNames d)
    ++ repeats (.severalFields d.name) (parts.flatMap fieldNames) (fieldNames d)
    ++ ((d.body.fields?.getD []).flatMap fun f =>
      argumentNames (d.name ++ "." ++ f.name) f.arguments)
    ++ repeatedDirectives doc (parts.flatMap TypeDefinition.directives) d.directives
    ++ (if extension then extended doc d else [])

def typeBody (doc : List Definition) (extension : Bool) (d : TypeDefinition) : List SchemaFault :=
  let uses := directives doc (typePlace d.kind) d.directives
  match d.body with
  | .scalar => uses
  | .object interfaces fields =>
    interfaces.flatMap (typeName doc false) ++ uses ++ fields.flatMap (field doc)
  | .interface interfaces fields =>
    interfaces.flatMap (typeName doc false) ++ uses ++ fields.flatMap (field doc)
  | .union members => uses ++ members.flatMap (typeName doc false)
  | .enum values => uses ++ values.flatMap (enumValue doc)
  | .inputObject fields => uses ++ fields.flatMap (inputField doc extension)

def type (doc before : List Definition) (extension : Bool) (d : TypeDefinition) :
    List SchemaFault :=
  typeHead doc before extension d ++ typeBody doc extension d

/-- An operation type for each operation that is served already. -/
def operationTypes (known : List Operation) : List OperationType → List SchemaFault
  | [] => []
  | t :: rest =>
    if known.contains t.operation then
      .severalOperationTypes t.operation :: operationTypes known rest
    else operationTypes (t.operation :: known) rest

def schema (doc before : List Definition) (extension : Bool) (d : SchemaDefinition) :
    List SchemaFault :=
  let parts := before.filterMap Definition.schemaPart?
  (if !extension && before.any Definition.isSchema then [.severalSchemas] else [])
    ++ operationTypes (parts.flatMap fun p => p.operationTypes.map (·.operation)) d.operationTypes
    ++ repeatedDirectives doc (parts.flatMap SchemaDefinition.directives) d.directives
    ++ directives doc .schema d.directives
    ++ d.operationTypes.flatMap fun t => typeName doc false t.type

def directiveDefinition (doc before : List Definition) (d : DirectiveDefinition) :
    List SchemaFault :=
  let known := (before.filterMap Definition.directiveDefined?).map DirectiveDefinition.name
  argumentNames ("@" ++ d.name) d.arguments
    ++ (if known.contains d.name then [.severalDirectives d.name] else [])
    ++ d.arguments.flatMap (inputValue doc)

mutual

def selection (doc : List Definition) : Selection → List SchemaFault
  | .field _ _ arguments ds inner =>
    repeatedDirectives doc [] ds ++ several .repeatedArgument (arguments.map Argument.name)
      ++ (arguments.flatMap fun a => literal a.value) ++ directives doc .field ds
      ++ selections doc inner
  | .spread _ ds => repeatedDirectives doc [] ds ++ directives doc .fragmentSpread ds
  | .inline condition ds inner =>
    repeatedDirectives doc [] ds ++ condition.toList.flatMap (typeName doc true)
      ++ directives doc .inlineFragment ds ++ selections doc inner

def selections (doc : List Definition) : List Selection → List SchemaFault
  | [] => []
  | s :: rest => selection doc s ++ selections doc rest

end

def variableDefinition (doc : List Definition) (d : VariableDefinition) : List SchemaFault :=
  repeatedDirectives doc [] d.directives ++ typeName doc true d.type.base
    ++ defaultValue d.default ++ directives doc .variableDefinition d.directives

def operationPlace : Operation → Place
  | .query => .query
  | .mutation => .mutation
  | .subscription => .subscription

def operation (doc : List Definition) (d : OperationDefinition) : List SchemaFault :=
  repeatedDirectives doc [] d.directives ++ d.parameters.flatMap (variableDefinition doc)
    ++ directives doc (operationPlace d.operation) d.directives ++ selections doc d.selections

def fragment (doc : List Definition) (d : FragmentDefinition) : List SchemaFault :=
  repeatedDirectives doc [] d.directives ++ typeName doc true d.condition
    ++ directives doc .fragmentDefinition d.directives ++ selections doc d.selections

/-- The faults of one definition of a document, given those before it. -/
def definition (doc before : List Definition) : Definition → List SchemaFault
  | .operation d => operation doc d
  | .fragment d => fragment doc d
  | .schema d => schema doc before false d
  | .schemaExtension d => schema doc before true d
  | .type d => type doc before false d
  | .typeExtension d => type doc before true d
  | .directive d => directiveDefinition doc before d

def definitions (doc before : List Definition) : List Definition → List SchemaFault
  | [] => []
  | d :: rest => definition doc before d ++ definitions doc (d :: before) rest

end Validation

/-- All faults of a document, in the order of its text. -/
def Document.faults (document : Document) : List SchemaFault :=
  Validation.definitions document.definitions [] document.definitions

end SchemaLoom
