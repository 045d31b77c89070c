import SchemaLoom.Document.Kind
import SchemaLoom.Document.Printer
import SchemaLoom.Entries

/-! Merging documents: definitions of one object type become one with all their fields, and all
schema definitions become one. -/

namespace SchemaLoom

/-- What a definition is when documents are merged. -/
inductive MergeKind where
  | objectType
  | schema
  | other
deriving DecidableEq, Repr

namespace Definition

def mergeKind : Definition → MergeKind
  | .type d => if d.kind = .object then .objectType else .other
  | .schema _ => .schema
  | _ => .other

/-- The name under which object type definitions are collected. -/
def objectName? (d : Definition) : Option Name :=
  if d.mergeKind = .objectType then d.name? else none

def isObjectNamed (name : Name) (d : Definition) : Bool := d.objectName? = some name

def isSchema (d : Definition) : Bool := d.mergeKind = .schema

end Definition

namespace TypeBody

def fields? : TypeBody → Option (List FieldDefinition)
  | .object _ fields => some fields
  | .interface _ fields => some fields
  | .inputObject fields => some fields
  | _ => none

def withFields (fields : List FieldDefinition) : TypeBody → TypeBody
  | .object interfaces _ => .object interfaces fields
  | .interface interfaces _ => .interface interfaces fields
  | .inputObject _ => .inputObject fields
  | body => body

end TypeBody

namespace Definition

def fields? : Definition → Option (List FieldDefinition)
  | .type d => d.body.fields?
  | .typeExtension d => d.body.fields?
  | _ => none

def fields (d : Definition) : List FieldDefinition := d.fields?.getD []

/-- The same definition with other fields, if it is of a kind that has fields. -/
def withFields (fields : List FieldDefinition) : Definition → Definition
  | .type d => .type { d with body := d.body.withFields fields }
  | .typeExtension d => .typeExtension { d with body := d.body.withFields fields }
  | d => d

def operationTypes? : Definition → Option (List OperationType)
  | .schema d => some d.operationTypes
  | .schemaExtension d => some d.operationTypes
  | _ => none

def operationTypes (d : Definition) : List OperationType := d.operationTypes?.getD []

def withOperationTypes (types : List OperationType) : Definition → Definition
  | .schema d => .schema { d with operationTypes := types }
  | .schemaExtension d => .schemaExtension { d with operationTypes := types }
  | d => d

end Definition

/-- The first definition with the fields of all. -/
def mergeFields (first : Definition) (others : List Definition) : Definition :=
  first.withFields (first.fields ++ others.flatMap Definition.fields)

/-- Add the operation types whose operation is not served yet. -/
def addOperationTypes (known : List OperationType) : List OperationType → List OperationType
  | [] => known
  | t :: rest =>
    if known.any (·.operation = t.operation) then addOperationTypes known rest
    else addOperationTypes (known ++ [t]) rest

/-- The first definition, with the operation types of the others for operations that are not
declared before them. -/
def mergeOperationTypes (first : Definition) (others : List Definition) : Definition :=
  first.withOperationTypes
    (addOperationTypes first.operationTypes (others.flatMap Definition.operationTypes))

/-- Object type definitions of one name: the first, and the others in their order. -/
structure ObjectGroup where
  first : Definition
  others : List Definition

namespace ObjectGroup

def definitions (g : ObjectGroup) : List Definition := g.first :: g.others

def add (d : Definition) (g : ObjectGroup) : ObjectGroup := { g with others := g.others ++ [d] }

def isRepeated (g : ObjectGroup) : Bool := !g.others.isEmpty

def merged (g : ObjectGroup) : Definition := mergeFields g.first g.others

end ObjectGroup

/-- Put a definition to the object type definitions of its name, if it is one. -/
def collectObject (groups : Entries ObjectGroup) (d : Definition) : Entries ObjectGroup :=
  match d.objectName? with
  | none => groups
  | some name =>
    match Entries.get? name groups with
    | none => Entries.set name ⟨d, []⟩ groups
    | some g => Entries.set name (g.add d) groups

/-- The object type definitions by their names, which come in the order of their first
definitions. -/
def objectGroups (ds : List Definition) : Entries ObjectGroup := ds.foldl collectObject []

def duplicates (ds : List Definition) : Entries ObjectGroup :=
  (objectGroups ds).filter fun (_, g) => g.isRepeated

/-- The names of object types that are defined more than once, by their first definitions. -/
def duplicatedNames (ds : List Definition) : List Name := Entries.keys (duplicates ds)

inductive MergeFault where
  | noDefinitions
  | lacksPart (kind part : String)
deriving DecidableEq, Repr

def MergeFault.message : MergeFault → String
  | .noDefinitions => "list index out of range"
  | .lacksPart kind part => "'" ++ nodeName kind ++ "' object has no attribute '" ++ part ++ "'"

/-- A definition to be merged. It may be set to give nothing, and then it need not have the part
that is merged. -/
structure Contribution where
  definition : Definition
  blank : Bool

/-- The first of the definitions that lacks a part is at fault. -/
def requirePart (part : String) (has : Definition → Bool) (given : List Contribution) :
    Except MergeFault Unit :=
  match given.find? fun c => !c.blank && !has c.definition with
  | some c => .error (.lacksPart c.definition.kindName part)
  | none => .ok ()

def Contribution.forFields (c : Contribution) : Definition :=
  if c.blank then c.definition.withFields [] else c.definition

def Contribution.forOperationTypes (c : Contribution) : Definition :=
  if c.blank then c.definition.withOperationTypes [] else c.definition

/-- Merge the fields of any definitions that have fields, whatever their kinds and names. -/
def mergeFields? : List Contribution → Except MergeFault Definition
  | [] => .error .noDefinitions
  | first :: others => do
    requirePart "fields" (·.fields?.isSome) (first :: others)
    return mergeFields first.forFields (others.map Contribution.forFields)

/-- Merge the operation types of any definitions that have them. -/
def mergeOperationTypes? : List Contribution → Except MergeFault Definition
  | [] => .error .noDefinitions
  | first :: others => do
    requirePart "operation_types" (·.operationTypes?.isSome) (first :: others)
    return mergeOperationTypes first.forOperationTypes (others.map Contribution.forOperationTypes)

/-- Whether a definition has the name of an object type that is merged. -/
def hasNameIn (names : List Name) (d : Definition) : Bool := d.name?.any names.contains

def mergeSchema (ds : List Definition) : Option Definition :=
  match ds.filter Definition.isSchema with
  | [] => none
  | first :: others => some (mergeOperationTypes first others)

/-- First come the definitions that are passed on as they are, then the schema definition, then the
merged object types. -/
def mergeDefinitions (ds : List Definition) : List Definition :=
  let repeated := duplicates ds
  let names := Entries.keys repeated
  ds.filter (fun d => !d.isSchema && !hasNameIn names d)
    ++ (mergeSchema ds).toList ++ repeated.map fun (_, g) => g.merged

def allDefinitions (documents : List Document) : List Definition :=
  documents.flatMap Document.definitions

def mergeDocuments (documents : List Document) : Document :=
  ⟨mergeDefinitions (allDefinitions documents)⟩

/-- What merging did, for the record. -/
structure MergeReport where
  before : Nat
  after : Nat
  types : List Name
  schemas : Nat
deriving DecidableEq, Repr

/-- Merging is worth a record if it brought definitions together. -/
def mergeReport? (documents : List Document) : Option MergeReport :=
  let ds := allDefinitions documents
  let report : MergeReport :=
    ⟨ds.length, (mergeDefinitions ds).length, duplicatedNames ds, ds.countP Definition.isSchema⟩
  if report.types.isEmpty && report.schemas ≤ 1 then none else some report

def MergeReport.message (r : MergeReport) : String :=
  let types := if r.types.isEmpty then "none" else String.intercalate ", " r.types
  "Merged " ++ toString r.before ++ " definitions into " ++ toString r.after ++ " (types merged: "
    ++ types ++ ", schema definitions: " ++ toString r.schemas ++ ")."

end SchemaLoom
