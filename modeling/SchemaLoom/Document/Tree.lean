/-! The syntax tree of a GraphQL document. -/

namespace SchemaLoom

abbrev Name := String

/-- The part of a source text that a node was read from. -/
structure Location where
  body : String
  start : Nat
  stop : Nat
deriving DecidableEq, Repr

structure StringLiteral where
  text : String
  block : Bool
deriving DecidableEq, Repr

inductive Literal where
  | var (name : Name)
  | int (digits : String)
  | float (digits : String)
  | string (value : StringLiteral)
  | boolean (value : Bool)
  | null
  | enum (name : Name)
  | list (items : List Literal)
  | object (fields : List (Name × Literal))
deriving Repr, Inhabited

def Literal.isNull : Literal → Bool
  | .null => true
  | _ => false

inductive TypeRef where
  | named (name : Name)
  | list (item : TypeRef)
  | nonNull (item : TypeRef)
deriving DecidableEq, Repr

/-- The name at the core of a type reference. -/
def TypeRef.base : TypeRef → Name
  | .named name => name
  | .list item => item.base
  | .nonNull item => item.base

def TypeRef.isNonNull : TypeRef → Bool
  | .nonNull _ => true
  | _ => false

structure Argument where
  name : Name
  value : Literal
  location : Option Location
deriving Repr

structure Directive where
  name : Name
  arguments : List Argument
  location : Option Location
deriving Repr

inductive Operation where
  | query
  | mutation
  | subscription
deriving DecidableEq, Repr

/-- The places where a directive may be used. -/
inductive Place where
  | query
  | mutation
  | subscription
  | field
  | fragmentDefinition
  | fragmentSpread
  | inlineFragment
  | variableDefinition
  | schema
  | scalar
  | object
  | fieldDefinition
  | argumentDefinition
  | interface
  | union
  | enum
  | enumValue
  | inputObject
  | inputFieldDefinition
  | directiveDefinition
deriving DecidableEq, Repr

structure VariableDefinition where
  description : Option StringLiteral
  name : Name
  type : TypeRef
  default : Option Literal
  directives : List Directive
deriving Repr

inductive Selection where
  | field (label : Option Name) (name : Name) (arguments : List Argument)
      (directives : List Directive) (selections : List Selection)
  | spread (name : Name) (directives : List Directive)
  | inline (condition : Option Name) (directives : List Directive) (selections : List Selection)
deriving Repr

structure OperationDefinition where
  description : Option StringLiteral
  operation : Operation
  name : Option Name
  parameters : List VariableDefinition
  directives : List Directive
  selections : List Selection
  location : Option Location
deriving Repr

structure FragmentDefinition where
  description : Option StringLiteral
  name : Name
  condition : Name
  directives : List Directive
  selections : List Selection
  location : Option Location
deriving Repr

/-- An argument of a field or of a directive. -/
structure InputValueDefinition where
  description : Option StringLiteral
  name : Name
  type : TypeRef
  default : Option Literal
  directives : List Directive
deriving Repr

/-- A field of a type. Fields of objects and interfaces may take arguments, input fields may have a
default. -/
structure FieldDefinition where
  description : Option StringLiteral
  name : Name
  arguments : List InputValueDefinition
  type : TypeRef
  default : Option Literal
  directives : List Directive
deriving Repr

structure EnumValueDefinition where
  description : Option StringLiteral
  name : Name
  directives : List Directive
deriving Repr

/-- The object type that serves an operation. -/
structure OperationType where
  operation : Operation
  type : Name
deriving DecidableEq, Repr

/-- A schema definition, or an extension of it. -/
structure SchemaDefinition where
  description : Option StringLiteral
  directives : List Directive
  operationTypes : List OperationType
  location : Option Location
deriving Repr

inductive TypeKind where
  | scalar
  | object
  | interface
  | union
  | enum
  | inputObject
deriving DecidableEq, Repr

/-- What a type is made of, apart from its name and directives. -/
inductive TypeBody where
  | scalar
  | object (interfaces : List Name) (fields : List FieldDefinition)
  | interface (interfaces : List Name) (fields : List FieldDefinition)
  | union (members : List Name)
  | enum (values : List EnumValueDefinition)
  | inputObject (fields : List FieldDefinition)
deriving Repr

def TypeBody.kind : TypeBody → TypeKind
  | .scalar => .scalar
  | .object _ _ => .object
  | .interface _ _ => .interface
  | .union _ => .union
  | .enum _ => .enum
  | .inputObject _ => .inputObject

/-- A type definition, or an extension of a type. -/
structure TypeDefinition where
  description : Option StringLiteral
  name : Name
  directives : List Directive
  body : TypeBody
  location : Option Location
deriving Repr

def TypeDefinition.kind (d : TypeDefinition) : TypeKind := d.body.kind

structure DirectiveDefinition where
  description : Option StringLiteral
  name : Name
  arguments : List InputValueDefinition
  repeatable : Bool
  places : List Place
  location : Option Location
deriving Repr

inductive Definition where
  | operation (d : OperationDefinition)
  | fragment (d : FragmentDefinition)
  | schema (d : SchemaDefinition)
  | schemaExtension (d : SchemaDefinition)
  | type (d : TypeDefinition)
  | typeExtension (d : TypeDefinition)
  | directive (d : DirectiveDefinition)
deriving Repr

namespace Definition

def name? : Definition → Option Name
  | .operation d => d.name
  | .fragment d => some d.name
  | .schema _ => none
  | .schemaExtension _ => none
  | .type d => some d.name
  | .typeExtension d => some d.name
  | .directive d => some d.name

def location? : Definition → Option Location
  | .operation d => d.location
  | .fragment d => d.location
  | .schema d => d.location
  | .schemaExtension d => d.location
  | .type d => d.location
  | .typeExtension d => d.location
  | .directive d => d.location

end Definition

structure Document where
  definitions : List Definition
deriving Repr

end SchemaLoom
