import SchemaLoom.Schema.Type
import SchemaLoom.Value

/-! Binding the functions of a resolver map to the types of a schema. What is bound is planned from
the schema and the map alone, and then put into the slots. -/

namespace SchemaLoom

/-- The places of a schema that a function or an internal value can be bound to. -/
inductive Slot where
  | isTypeOf (type : Name)
  | resolveType (type : Name)
  | resolve (type field : Name)
  | subscribe (type field : Name)
  | enumValue (type value : Name)
  | serialize (type : Name)
  | parseValue (type : Name)
  | parseLiteral (type : Name)
deriving DecidableEq, Repr

@[ext]
structure Bindings where
  get : Slot → Value

namespace Bindings

/-- At first enum values stand for their names, and nothing else is bound. -/
def initial : Bindings where
  get
    | .enumValue _ value => .text value
    | _ => .null

def bind (slot : Slot) (value : Value) (b : Bindings) : Bindings where
  get s := if s = slot then value else b.get s

def bindAll (assignments : List (Slot × Value)) (b : Bindings) : Bindings :=
  assignments.foldl (fun b (slot, value) => bind slot value b) b

end Bindings

/-- Why a resolver map does not fit a schema. -/
inductive ResolverFault where
  | unknownType (type : Name)
  | scalarForm (type : Name)
  | scalarKeys (type : Name) (keys : List String)
  | notMapping (type : Name)
  | unresolvable (type : Name)
  | notAbstract (type key : Name)
  | notObject (type key : Name)
  | unknownField (type field : Name)
  | notFunction (type field : Name)
  | unionKey (type key : Name)
  | unknownValue (type value : Name)
deriving DecidableEq, Repr

def ResolverFault.message : ResolverFault → String
  | .unknownType type => "\"" ++ type ++ "\" defined in resolvers, but not in schema."
  | .scalarForm type =>
    "Resolvers for scalar \"" ++ type ++ "\" must be given as a scalar type or a mapping."
  | .scalarKeys type keys =>
    "Scalar \"" ++ type ++ "\" does not accept " ++ String.intercalate ", " keys ++ "."
  | .notMapping type => "Resolvers for \"" ++ type ++ "\" must be given as a mapping."
  | .unresolvable type => "\"" ++ type ++ "\" cannot have resolvers."
  | .notAbstract type key =>
    "\"" ++ type ++ "\" is not an abstract type and cannot have " ++ key ++ "."
  | .notObject type key =>
    "\"" ++ type ++ "\" is not an object type and cannot have " ++ key ++ "."
  | .unknownField type field =>
    type ++ "." ++ field ++ " defined in resolvers, but not in schema."
  | .notFunction type field => "Resolver for " ++ type ++ "." ++ field ++ " must be a function."
  | .unionKey type key =>
    "Union \"" ++ type ++ "\" only accepts __resolve_type, not " ++ key ++ "."
  | .unknownValue type value =>
    type ++ "." ++ value ++ " defined in resolvers, but not in schema."

namespace Resolver

abbrev Assignments := List (Slot × Value)

def isResolveTypeKey (key : String) : Bool := key = "__resolve_type" || key = "__resolveType"

def isTypeOfKey (key : String) : Bool := key = "__is_type_of" || key = "__isTypeOf"

/-- The slots of scalar types with the keys for them. -/
def scalarSlots (type : Name) : List (String × Slot) :=
  [("serialize", .serialize type), ("parse_value", .parseValue type),
   ("parse_literal", .parseLiteral type)]

def isScalarKey (key : String) : Bool :=
  key = "serialize" || key = "parse_value" || key = "parse_literal"

/-- An absent value under a key of a scalar type binds nothing. -/
def scalarAssignments (type : Name) (given : List (String × Value)) : Assignments :=
  (scalarSlots type).filterMap fun (key, slot) =>
    match Entries.get? key given with
    | none => none
    | some .null => none
    | some value => some (slot, value)

/-- A field's resolver: a function, or a mapping that may hold two of them. -/
def fieldAssignments (type field : Name) : Value → Except ResolverFault Assignments
  | .mapping entries =>
    .ok (((Entries.get? "resolve" entries).map fun v => (Slot.resolve type field, v)).toList
      ++ ((Entries.get? "subscribe" entries).map fun v => (Slot.subscribe type field, v)).toList)
  | value =>
    if value.isCallable then .ok [(.resolve type field, value)]
    else .error (.notFunction type field)

/-- An entry for an object or interface type. -/
def memberEntry (t : NamedType) (key : String) (value : Value) :
    Except ResolverFault Assignments :=
  if isResolveTypeKey key then
    if t.kind = .interface then .ok [(.resolveType t.name, value)]
    else .error (.notAbstract t.name key)
  else if isTypeOfKey key then
    if t.kind = .object then .ok [(.isTypeOf t.name, value)]
    else .error (.notObject t.name key)
  else if t.fields.any (·.name = key) then fieldAssignments t.name key value
  else .error (.unknownField t.name key)

def unionEntry (t : NamedType) (key : String) (value : Value) : Except ResolverFault Assignments :=
  if isResolveTypeKey key then .ok [(.resolveType t.name, value)]
  else .error (.unionKey t.name key)

def enumEntry (t : NamedType) (values : List Name) (key : String) (value : Value) :
    Except ResolverFault Assignments :=
  if values.contains key then .ok [(.enumValue t.name key, value)]
  else .error (.unknownValue t.name key)

/-- What can be bound before the first fault, and that fault. -/
structure Part where
  assignments : Assignments
  fault : Option ResolverFault

/-- The assignments of entries up to the first that does not fit. -/
def entriesPart (entry : String → Value → Except ResolverFault Assignments) :
    List (String × Value) → Part
  | [] => ⟨[], none⟩
  | (key, value) :: rest =>
    match entry key value with
    | .error fault => ⟨[], some fault⟩
    | .ok assignments =>
      let part := entriesPart entry rest
      ⟨assignments ++ part.assignments, part.fault⟩

/-- The assignments for a scalar type. They are made even if there are unknown keys. -/
def scalarPart (type : Name) : Value → Part
  | .scalarType _ functions => ⟨scalarAssignments type functions, none⟩
  | .mapping entries =>
    let unknown := (Entries.keys entries).filter (!isScalarKey ·)
    ⟨scalarAssignments type entries,
      if unknown.isEmpty then none else some (.scalarKeys type unknown)⟩
  | _ => ⟨[], some (.scalarForm type)⟩

/-- The assignments for a type that is not scalar. -/
def compositePart (t : NamedType) : Value → Part
  | .mapping entries =>
    match t.shape with
    | .object _ _ => entriesPart (memberEntry t) entries
    | .interface _ _ => entriesPart (memberEntry t) entries
    | .union _ => entriesPart (unionEntry t) entries
    | .enum values => entriesPart (enumEntry t (values.map EnumValue.name)) entries
    | _ => ⟨[], some (.unresolvable t.name)⟩
  | _ => ⟨[], some (.notMapping t.name)⟩

def typePart (schema : Schema) (name : Name) (value : Value) : Part :=
  match schema.type? name with
  | none => ⟨[], some (.unknownType name)⟩
  | some t => if t.kind = .scalar then scalarPart t.name value else compositePart t value

/-- Whether a type is mentioned when it got its resolvers. -/
def isReported (schema : Schema) (name : Name) : Bool :=
  (schema.type? name).any (·.kind ≠ .scalar)

/-- The whole of what a resolver map binds, and the types that got all of it. -/
structure Plan where
  assignments : Assignments
  reported : List Name
  fault : Option ResolverFault

def plan (schema : Schema) : List (String × Value) → Plan
  | [] => ⟨[], [], none⟩
  | (name, value) :: rest =>
    let part := typePart schema name value
    match part.fault with
    | some fault => ⟨part.assignments, [], some fault⟩
    | none =>
      let further := plan schema rest
      ⟨part.assignments ++ further.assignments,
        (if isReported schema name then [name] else []) ++ further.reported, further.fault⟩

end Resolver

/-- Bind the functions of a resolver map. Where the map does not fit, what comes before the misfit
is bound nevertheless. -/
def addResolvers (schema : Schema) (resolvers : List (String × Value)) (b : Bindings) : Bindings :=
  b.bindAll (Resolver.plan schema resolvers).assignments

end SchemaLoom
