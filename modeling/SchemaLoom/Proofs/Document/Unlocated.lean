import SchemaLoom.Merge

/-! Syntax trees without their locations, for comparing what was read at different places. -/

namespace SchemaLoom

def Argument.unlocated (a : Argument) : Argument := { a with location := none }

def Directive.unlocated (d : Directive) : Directive :=
  ⟨d.name, d.arguments.map Argument.unlocated, none⟩

def VariableDefinition.unlocated (d : VariableDefinition) : VariableDefinition :=
  { d with directives := d.directives.map Directive.unlocated }

mutual

def Selection.unlocated : Selection → Selection
  | .field label name arguments directives inner =>
    .field label name (arguments.map Argument.unlocated) (directives.map Directive.unlocated)
      (Selection.unlocatedAll inner)
  | .spread name directives => .spread name (directives.map Directive.unlocated)
  | .inline condition directives inner =>
    .inline condition (directives.map Directive.unlocated) (Selection.unlocatedAll inner)

def Selection.unlocatedAll : List Selection → List Selection
  | [] => []
  | s :: rest => s.unlocated :: Selection.unlocatedAll rest

end

theorem Selection.unlocatedAll_eq (selections : List Selection) :
    Selection.unlocatedAll selections = selections.map Selection.unlocated := by
  induction selections with
  | nil => rfl
  | cons s rest ih => rw [unlocatedAll, ih, List.map_cons]

def OperationDefinition.unlocated (d : OperationDefinition) : OperationDefinition :=
  { d with
    parameters := d.parameters.map VariableDefinition.unlocated
    directives := d.directives.map Directive.unlocated
    selections := d.selections.map Selection.unlocated
    location := none }

def FragmentDefinition.unlocated (d : FragmentDefinition) : FragmentDefinition :=
  { d with
    directives := d.directives.map Directive.unlocated
    selections := d.selections.map Selection.unlocated
    location := none }

def InputValueDefinition.unlocated (d : InputValueDefinition) : InputValueDefinition :=
  { d with directives := d.directives.map Directive.unlocated }

def FieldDefinition.unlocated (d : FieldDefinition) : FieldDefinition :=
  { d with
    arguments := d.arguments.map InputValueDefinition.unlocated
    directives := d.directives.map Directive.unlocated }

def EnumValueDefinition.unlocated (d : EnumValueDefinition) : EnumValueDefinition :=
  { d with directives := d.directives.map Directive.unlocated }

def SchemaDefinition.unlocated (d : SchemaDefinition) : SchemaDefinition :=
  { d with directives := d.directives.map Directive.unlocated, location := none }

def TypeBody.unlocated : TypeBody → TypeBody
  | .scalar => .scalar
  | .object interfaces fields => .object interfaces (fields.map FieldDefinition.unlocated)
  | .interface interfaces fields => .interface interfaces (fields.map FieldDefinition.unlocated)
  | .union members => .union members
  | .enum values => .enum (values.map EnumValueDefinition.unlocated)
  | .inputObject fields => .inputObject (fields.map FieldDefinition.unlocated)

def TypeDefinition.unlocated (d : TypeDefinition) : TypeDefinition :=
  { d with
    directives := d.directives.map Directive.unlocated
    body := d.body.unlocated
    location := none }

def DirectiveDefinition.unlocated (d : DirectiveDefinition) : DirectiveDefinition :=
  { d with arguments := d.arguments.map InputValueDefinition.unlocated, location := none }

def Definition.unlocated : Definition → Definition
  | .operation d => .operation d.unlocated
  | .fragment d => .fragment d.unlocated
  | .schema d => .schema d.unlocated
  | .schemaExtension d => .schemaExtension d.unlocated
  | .type d => .type d.unlocated
  | .typeExtension d => .typeExtension d.unlocated
  | .directive d => .directive d.unlocated

def Document.unlocated (d : Document) : Document := ⟨d.definitions.map Definition.unlocated⟩

end SchemaLoom
