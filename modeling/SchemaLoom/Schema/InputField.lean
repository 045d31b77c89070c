import SchemaLoom.Schema.BuildFault
import SchemaLoom.Schema.Validation

/-! Arguments and input fields with their defaults. Whether a default fits its type depends on the
defaults of other input types, so the fields of all input types are found together, in rounds. -/

namespace SchemaLoom

namespace Build

open Validation

abbrev Result := Except BuildFault

def noteWithin (type : Name) (part : TypePart) (result : Result α) : Result α :=
  result.mapError (.metWithin type part)

def kind? (doc : List Definition) (name : Name) : Option TypeKind :=
  match standardType? name with
  | some type => some type.kind
  | none => (typeNamed? doc name).map TypeDefinition.kind

/-- Names that are referred to have to be known. -/
def kindOf (doc : List Definition) (name : Name) : Result TypeKind :=
  match kind? doc name with
  | some kind => .ok kind
  | none => .error (.unknownType name)

def isInput : TypeKind → Bool
  | .scalar => true
  | .enum => true
  | .inputObject => true
  | _ => false

/-- The extensions of a type, of whatever kind they are. -/
def extensionsOf (doc : List Definition) (name : Name) : List TypeDefinition :=
  (doc.filterMap Definition.typeExtended?).filter (·.name = name)

def partsOf (doc : List Definition) (d : TypeDefinition) : List TypeDefinition :=
  d :: extensionsOf doc d.name

def fieldsOf (d : TypeDefinition) : List FieldDefinition := d.body.fields?.getD []

/-- The last of the arguments with a name. -/
def argument? (d : Directive) (name : Name) : Option Argument :=
  d.arguments.reverse.find? (·.name = name)

/-- Why something is deprecated, if it is. The reason may be left out. -/
def deprecation (ds : List Directive) : Result (Option String) :=
  match ds.find? (·.name = "deprecated") with
  | none => .ok none
  | some d =>
    match argument? d "reason" with
    | none => .ok (some "No longer supported")
    | some a =>
      match a.value with
      | .null => .ok none
      | .string s => .ok (some s.text)
      | value => .error (.badArgument "reason" (.invalid value) a.location)

def enumNames (doc : List Definition) (name : Name) : List Name :=
  match standardType? name, typeNamed? doc name with
  | some ⟨_, _, .enum values⟩, _ => values.map EnumValue.name
  | none, some d => (partsOf doc d).flatMap enumValueNames
  | _, _ => []

def isSmallInt (digits : String) : Bool :=
  match digits.toInt? with
  | some n => -2147483648 ≤ n && n ≤ 2147483647
  | none => false

/-- Whether a scalar or enum type has a value that is written so. A scalar type of one's own takes
every value. -/
def takesLiteral (doc : List Definition) (name : Name) (kind : TypeKind) (value : Literal) : Bool :=
  match kind, name, value with
  | .enum, _, .enum v => (enumNames doc name).contains v
  | .enum, _, _ => false
  | _, "Int", .int digits => isSmallInt digits
  | _, "Int", _ => false
  | _, "Float", .int _ => true
  | _, "Float", .float _ => true
  | _, "Float", _ => false
  | _, "String", .string _ => true
  | _, "String", _ => false
  | _, "Boolean", .boolean _ => true
  | _, "Boolean", _ => false
  | _, "ID", .string _ => true
  | _, "ID", .int _ => true
  | _, "ID", _ => false
  | _, _, _ => true

/-- Whether a value that is not null fits a type. `leaf` decides for the named type at the core,
`items` for the elements if the value is a list. -/
def fits (leaf : Name → Result Bool) (items : Option (TypeRef → Result Bool)) :
    TypeRef → Result Bool
  | .nonNull type => fits leaf items type
  | .list type =>
    match items with
    | some check => check type
    | none => fits leaf none type
  | .named name => leaf name

/-- Whether a value fits a named type. `inner` is asked if that is an input type. -/
def fitsNamed (doc : List Definition) (value : Literal) (inner : Name → Result Bool)
    (name : Name) : Result Bool := do
  match ← kindOf doc name with
  | .scalar => return takesLiteral doc name .scalar value
  | .enum => return takesLiteral doc name .enum value
  | .inputObject => inner name
  | _ => throw (.defaultNotInput name)

/-- The values that fields get, or nothing if one of them cannot get any. A field that is not given
takes its default, and without one it is left out if it may be null. -/
def fieldValues (given : Entries (Literal × (TypeRef → Result Bool))) :
    List InputField → Result (Option (List Literal))
  | [] => .ok (some [])
  | f :: rest => do
    match Entries.get? f.name given, f.effective with
    | some (value, check), _ =>
      if ← check f.type then return (← fieldValues given rest).map (value :: ·) else return none
    | none, some value => return (← fieldValues given rest).map (value :: ·)
    | none, none => if f.type.isNonNull then return none else fieldValues given rest

/-- Whether exactly one field of an input type has to be given a value, and that not null. -/
def isOneOf (doc : List Definition) (name : Name) : Bool :=
  (typeNamed? doc name).any fun d => d.directives.any (·.name = "oneOf")

def isOneValue : List Literal → Bool
  | [value] => !value.isNull
  | _ => false

/-- Whether an input type takes the values given for its fields. -/
def fitsFields (doc : List Definition) (name : Name) (fields : List InputField)
    (given : List (Name × (Literal × (TypeRef → Result Bool)))) : Result Bool := do
  match ← fieldValues (Entries.ofList given) fields with
  | none => return false
  | some values => return !isOneOf doc name || isOneValue values

mutual

/-- Whether a value fits a type. `inputFields` gives the fields of an input type. -/
def fitsType (doc : List Definition) (inputFields : Name → Result (List InputField)) :
    Literal → TypeRef → Result Bool
  | .null => fun type => .ok (!type.isNonNull)
  | .list items =>
    fits (fitsNamed doc (.list items) fun _ => .ok false)
      (some (fitsItems doc inputFields items))
  | .object given =>
    fits (fitsNamed doc (.object given) fun name => do
      fitsFields doc name (← inputFields name) (fitsGiven doc inputFields given)) none
  | value => fits (fitsNamed doc value fun _ => .ok false) none

def fitsItems (doc : List Definition) (inputFields : Name → Result (List InputField)) :
    List Literal → TypeRef → Result Bool
  | [] => fun _ => .ok true
  | item :: items => fun type => do
    if ← fitsType doc inputFields item type then fitsItems doc inputFields items type
    else return false

def fitsGiven (doc : List Definition) (inputFields : Name → Result (List InputField)) :
    List (Name × Literal) → List (Name × (Literal × (TypeRef → Result Bool)))
  | [] => []
  | (name, value) :: rest =>
    (name, value, fitsType doc inputFields value) :: fitsGiven doc inputFields rest

end

/-- An argument or input field. Looking at its default may bring faults of other types to light;
a default that does not fit does no harm. -/
def inputField (doc : List Definition) (inputFields : Name → Result (List InputField))
    (notInput : BuildFault) (description : Option StringLiteral) (name : Name) (type : TypeRef)
    (default : Option Literal) (ds : List Directive) : Result InputField := do
  let kind ← kindOf doc type.base
  let effective ← default.filterM fun value => fitsType doc inputFields value type
  let reason ← deprecation ds
  if isInput kind then
    return ⟨name, type, default, effective, description.map StringLiteral.text, reason⟩
  else throw notInput

/-- Of things with one name the last counts, at the place of the first. -/
def lastOfEach (name : α → Name) (items : List α) : List α :=
  (Entries.ofList (items.map fun item => (name item, item))).map Prod.snd

/-- The fields of an input type, in terms of the fields of all input types. -/
def inputFieldsOf (doc : List Definition) (inputFields : Name → Result (List InputField))
    (d : TypeDefinition) : Result (List InputField) :=
  noteWithin d.name .fields do
    let fields ← ((partsOf doc d).flatMap fieldsOf).mapM fun f =>
      inputField doc inputFields .inputFieldNotInput f.description f.name f.type f.default
        f.directives
    return lastOfEach InputField.name fields

/-- An input type with what is known of its fields. -/
structure InputType where
  definition : TypeDefinition
  fields : Result (List InputField)

namespace InputType

/-- At first the defaults of a type count as endless. -/
def unknown (d : TypeDefinition) : InputType := ⟨d, .error (.endlessDefaults d.name)⟩

/-- Whether something is found out about the fields for good. -/
def isSettled (type : InputType) : Bool :=
  match type.fields with
  | .error (.endlessDefaults _) => false
  | _ => true

end InputType

abbrev InputTypes := List InputType

namespace InputTypes

def fields (types : InputTypes) (name : Name) : Result (List InputField) :=
  match types.find? (·.definition.name = name) with
  | some type => type.fields
  | none => .error (.endlessDefaults name)

/-- Look at every type that is not settled, with what is known of the others. -/
def advance (doc : List Definition) (types : InputTypes) : InputTypes :=
  types.map fun type =>
    if type.isSettled then type
    else ⟨type.definition, inputFieldsOf doc types.fields type.definition⟩

/-- Advance up to a number of times, until no more types get settled. -/
def settle (doc : List Definition) : Nat → InputTypes → InputTypes
  | 0, types => types
  | n + 1, types =>
    let next := advance doc types
    if next.countP InputType.isSettled = types.countP InputType.isSettled then next
    else settle doc n next

end InputTypes

/-- The fields of all input types. Each round settles at least one more type, as long as defaults do
not depend on each other. -/
def inputTypes (doc : List Definition) : InputTypes :=
  let ds := (lastOfEach TypeDefinition.name (doc.filterMap Definition.typeDefined?)).filter
    (·.kind = .inputObject)
  InputTypes.settle doc ds.length (ds.map InputType.unknown)

end Build

end SchemaLoom
