import SchemaLoom.Schema.InputField

/-! Building a schema from a document of type system definitions. -/

namespace SchemaLoom

namespace Build

open Validation

def isOutput (kind : TypeKind) : Bool := kind ≠ .inputObject

def interfacesOf (d : TypeDefinition) : List Name :=
  match d.body with
  | .object interfaces _ => interfaces
  | .interface interfaces _ => interfaces
  | _ => []

def membersOf (d : TypeDefinition) : List Name :=
  match d.body with
  | .union members => members
  | _ => []

def valuesOf (d : TypeDefinition) : Result (List EnumValueDefinition) :=
  match d.body with
  | .enum values => .ok values
  | _ => .error (.enumExtendedAs d.kind)

/-- An enum value has to be deprecated, if it is, with a reason that is a text. -/
def enumValue (value : EnumValueDefinition) : Result EnumValue := do
  let reason ← deprecation value.directives
  return ⟨value.name, value.description.map StringLiteral.text, reason⟩

def enumValues (doc : List Definition) (d : TypeDefinition) : Result (List EnumValue) := do
  let values ← (partsOf doc d).mapM fun part => do (← valuesOf part).mapM enumValue
  return lastOfEach EnumValue.name values.flatten

/-- The address of a scalar's specification, which has to be given where it is announced. -/
def specification (ds : List Directive) : Result (Option String) :=
  match ds.find? (·.name = "specifiedBy") with
  | none => .ok none
  | some d =>
    match argument? d "url" with
    | none => .error (.badArgument "url" (.missing (requiredRef "String")) d.location)
    | some a =>
      match a.value with
      | .null => .error (.badArgument "url" (.null (requiredRef "String")) a.location)
      | .string s => .ok (some s.text)
      | value => .error (.badArgument "url" (.invalid value) a.location)

def argumentsOf (doc : List Definition) (types : InputTypes)
    (arguments : List InputValueDefinition) : Result (List InputField) := do
  let fields ← arguments.mapM fun a =>
    inputField doc types.fields .argumentNotInput a.description a.name a.type a.default a.directives
  return lastOfEach InputField.name fields

def field (doc : List Definition) (types : InputTypes) (f : FieldDefinition) : Result Field := do
  let kind ← kindOf doc f.type.base
  let arguments ← argumentsOf doc types f.arguments
  let reason ← deprecation f.directives
  unless isOutput kind do throw .fieldNotOutput
  return ⟨f.name, f.type, f.description.map StringLiteral.text, reason, arguments⟩

def outputFields (doc : List Definition) (types : InputTypes) (d : TypeDefinition) :
    Result (List Field) :=
  noteWithin d.name .fields do
    let fields ← ((partsOf doc d).flatMap fieldsOf).mapM (field doc types)
    return lastOfEach Field.name fields

/-- References to types, all of which have to be of one kind. -/
def references (doc : List Definition) (d : TypeDefinition) (part : TypePart) (kind : TypeKind)
    (otherwise : BuildFault) (names : TypeDefinition → List Name) : Result (List Name) := do
  let found ← noteWithin d.name part do
    ((partsOf doc d).flatMap names).mapM fun name => do return (name, ← kindOf doc name)
  if found.all (·.2 = kind) then return found.map Prod.fst else throw otherwise

def interfaces (doc : List Definition) (d : TypeDefinition) : Result (List Name) :=
  references doc d .interfaces .interface (.notInterfaces d.name) interfacesOf

def shape (doc : List Definition) (types : InputTypes) (d : TypeDefinition) : Result Shape := do
  match d.kind with
  | .scalar => return .scalar (← specification d.directives)
  | .object =>
    let implemented ← interfaces doc d
    return .object implemented (← outputFields doc types d)
  | .interface =>
    let implemented ← interfaces doc d
    return .interface implemented (← outputFields doc types d)
  | .union =>
    return .union (← references doc d .members .object (.notObjects d.name) membersOf)
  | .enum => return .enum (← enumValues doc d)
  | .inputObject => return .inputObject (← types.fields d.name) (isOneOf doc d.name)

/-- A type as it is in the schema: standard types cannot be defined anew. -/
def namedType (doc : List Definition) (types : InputTypes) (d : TypeDefinition) :
    Result NamedType := do
  match standardType? d.name with
  | some type => return type
  | none => return ⟨d.name, d.description.map StringLiteral.text, ← shape doc types d⟩

def directiveType (doc : List Definition) (types : InputTypes) (d : DirectiveDefinition) :
    Result DirectiveType := do
  let arguments ← argumentsOf doc types d.arguments
  return ⟨d.name, d.description.map StringLiteral.text, arguments, d.repeatable, d.places⟩

def checkContents (doc : List Definition) (d : TypeDefinition) : Result Unit := do
  match d.kind with
  | .enum => let _ ← enumValues doc d
  | .scalar => let _ ← specification d.directives
  | _ => return

/-- What is looked at before references are followed: the values of enums, the specifications of
scalars, and the kinds of extensions. -/
def checkEarly (doc : List Definition) (d : TypeDefinition) : Result Unit := do
  if (standardType? d.name).isSome then return
  checkContents doc d
  unless (extensionsOf doc d.name).all (·.kind = d.kind) do
    throw (.extendedAsOther d.name d.kind)

/-- The schema definition that counts, the last one. -/
def schemaDefinition? (doc : List Definition) : Option SchemaDefinition :=
  (doc.filterMap Definition.schemaDefined?).getLast?

/-- The operation types of the schema definition, and of all its extensions. -/
def operationTypes (doc : List Definition) : List OperationType :=
  ((schemaDefinition? doc).toList ++ doc.filterMap Definition.schemaExtended?).flatMap
    SchemaDefinition.operationTypes

/-- The root type of an operation. Without a schema definition a type with the usual name has
precedence. -/
def rootType (doc : List Definition) (operation : Operation) (usual : Name) : Option Name :=
  let declared :=
    ((operationTypes doc).reverse.find? (·.operation = operation)).map OperationType.type
  if !doc.any Definition.isSchema && (definedTypeNames doc).contains usual then some usual
  else declared

def typesOf (fields : List InputField) : List Name := fields.map (·.type.base)

def referencedNames (t : NamedType) : List Name :=
  match t.shape with
  | .inputObject fields _ => typesOf fields
  | _ => t.fields.flatMap fun f => f.type.base :: typesOf f.arguments

/-- A schema has the types of its document, those standard scalars that it refers to, and the types
of introspection, which refer to `String` and `Boolean`. -/
def allTypes (types : List NamedType) (others : List Name) : List NamedType :=
  let used := (types ++ introspectionTypes).flatMap referencedNames ++ others
  let missing := standardTypes.filter fun t =>
    !types.any (·.name = t.name)
      && (t.name = "Boolean" || used.contains t.name || introspectionTypes.any (·.name = t.name))
  types ++ missing

def checkAllEarly (doc : List Definition) : Result Unit := do
  for d in doc.filterMap Definition.typeDefined? do checkEarly doc d
  for t in operationTypes doc do
    let _ ← kindOf doc t.type

/-- The schema of a document with certain types and directives. -/
def assemble (doc : List Definition) (directiveTypes : List DirectiveType)
    (types : List NamedType) : Schema :=
  let query := rootType doc .query "Query"
  let mutation := rootType doc .mutation "Mutation"
  let subscription := rootType doc .subscription "Subscription"
  let others := query.toList ++ mutation.toList ++ subscription.toList
    ++ directiveTypes.flatMap fun d => typesOf d.arguments
  { query, mutation, subscription, directiveTypes
    description := (schemaDefinition? doc).bind fun d => d.description.map StringLiteral.text
    types := allTypes types others }

/-- Build a schema from definitions that are taken to be valid. -/
def schema (doc : List Definition) : Result Schema := do
  checkAllEarly doc
  let inputs := inputTypes doc
  let directiveTypes ←
    (doc.filterMap Definition.directiveDefined?).mapM (directiveType doc inputs)
  let types ← (lastOfEach TypeDefinition.name (doc.filterMap Definition.typeDefined?)).mapM
    (namedType doc inputs)
  return assemble doc directiveTypes types

end Build

/-- Build a schema from a document. The rules are not checked if the document is taken to be
valid. -/
def buildSchema (document : Document) (assumeValid : Bool) : Except BuildFault Schema :=
  let faults := if assumeValid then [] else document.faults
  if faults.isEmpty then Build.schema document.definitions else .error (.faulty faults)

end SchemaLoom
