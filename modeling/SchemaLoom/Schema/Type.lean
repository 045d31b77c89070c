import SchemaLoom.Document.Tree

/-! Built schemas: the types that a document defines, without anything of its text. -/

namespace SchemaLoom

/-- An argument of a field, or a field of an input type. -/
structure InputField where
  name : Name
  type : TypeRef
  /-- The default as it is written. -/
  default : Option Literal
  /-- The default if it fits the type, and so has an effect. -/
  effective : Option Literal
  description : Option String
  deprecation : Option String
deriving Repr

structure Field where
  name : Name
  type : TypeRef
  description : Option String
  deprecation : Option String
  arguments : List InputField
deriving Repr

structure EnumValue where
  name : Name
  description : Option String
  deprecation : Option String
deriving Repr

/-- What a type of a schema is made of. -/
inductive Shape where
  /-- A scalar type may say where it is specified. -/
  | scalar (specification : Option String)
  | object (interfaces : List Name) (fields : List Field)
  | interface (interfaces : List Name) (fields : List Field)
  | union (members : List Name)
  | enum (values : List EnumValue)
  /-- Of some input types exactly one field has to be given. -/
  | inputObject (fields : List InputField) (oneOf : Bool)
deriving Repr

def Shape.kind : Shape → TypeKind
  | .scalar _ => .scalar
  | .object _ _ => .object
  | .interface _ _ => .interface
  | .union _ => .union
  | .enum _ => .enum
  | .inputObject _ _ => .inputObject

structure NamedType where
  name : Name
  description : Option String
  shape : Shape
deriving Repr

def NamedType.kind (t : NamedType) : TypeKind := t.shape.kind

def NamedType.fields (t : NamedType) : List Field :=
  match t.shape with
  | .object _ fields => fields
  | .interface _ fields => fields
  | _ => []

structure DirectiveType where
  name : Name
  description : Option String
  arguments : List InputField
  repeatable : Bool
  places : List Place
deriving Repr

structure Schema where
  query : Option Name
  mutation : Option Name
  subscription : Option Name
  description : Option String
  /-- The directives that the document defines. -/
  directiveTypes : List DirectiveType
  types : List NamedType
deriving Repr

def Schema.directives (schema : Schema) : List Name := schema.directiveTypes.map DirectiveType.name

def Schema.type? (schema : Schema) (name : Name) : Option NamedType :=
  schema.types.find? (·.name = name)

end SchemaLoom
