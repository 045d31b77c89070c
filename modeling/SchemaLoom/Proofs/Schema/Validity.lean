import SchemaLoom.Proofs.Schema.Rearranged

/-! Rearranged definitions break rules if and only if they do so in their first order. Only what is
suggested in place of unknown names may differ. -/

namespace SchemaLoom

open Validation Build

@[simp] theorem DirectiveDefinition.unlocated_argumentNames (d : DirectiveDefinition) :
    d.unlocated.arguments.map InputValueDefinition.name =
      d.arguments.map InputValueDefinition.name :=
  List.map_map ..

theorem argumentNames_unlocated (owner : String) (ds : List InputValueDefinition) :
    argumentNames owner (ds.map InputValueDefinition.unlocated) = argumentNames owner ds := by
  rw [argumentNames, argumentNames, List.map_map]
  rfl

theorem DirectiveDefinition.requiredArguments_unlocated (d : DirectiveDefinition) :
    requiredArguments d.unlocated = requiredArguments d := by
  rw [requiredArguments, requiredArguments, DirectiveDefinition.unlocated, List.filter_map,
    List.map_map]
  rfl

namespace Rearranged

variable {doc bare : List Definition}

theorem typeName (h : Rearranged doc bare) (executable : Bool) (name : Name) :
    Validation.typeName bare executable name = [] ↔
      Validation.typeName doc executable name = [] := by
  simp only [Validation.typeName, List.contains_eq_mem, List.mem_append, h.mem_definedTypeNames]
  split <;> simp

theorem directive (h : Rearranged doc bare) (place : Place) (d : Directive) :
    Validation.directive bare place d.unlocated = Validation.directive doc place d := by
  have hgiven : d.unlocated.arguments.map Argument.name = d.arguments.map Argument.name :=
    List.map_map ..
  have hvalues : (d.unlocated.arguments.flatMap fun a => Validation.literal a.value) =
      d.arguments.flatMap fun a => Validation.literal a.value := List.flatMap_map ..
  have hname : d.unlocated.name = d.name := rfl
  rw [Validation.directive, Validation.directive, hgiven, hvalues, hname, h.directiveNamed?]
  cases Validation.directiveNamed? doc d.name with
  | none => rfl
  | some definition =>
    simp only [Option.map_some, DirectiveDefinition.unlocated_argumentNames,
      DirectiveDefinition.requiredArguments_unlocated]
    rfl

theorem directives (h : Rearranged doc bare) (place : Place) (ds : List Directive) :
    Validation.directives bare place (ds.map Directive.unlocated) =
      Validation.directives doc place ds := by
  rw [Validation.directives, Validation.directives, List.flatMap_map]
  exact congrArg ds.flatMap (funext (h.directive place))

theorem repeatedDirectives (h : Rearranged doc bare) (ds : List Directive) :
    Validation.repeatedDirectives bare [] (ds.map Directive.unlocated) =
      Validation.repeatedDirectives doc [] ds := by
  have hunique : ∀ own : List Directive,
      uniqueNames bare (own.map Directive.unlocated) = uniqueNames doc own := by
    intro own
    have hnames : (own.map Directive.unlocated).map Directive.name = own.map Directive.name :=
      List.map_map ..
    rw [uniqueNames, uniqueNames, hnames]
    refine List.filter_congr fun name _ => ?_
    rw [h.directiveNamed?]
    cases Validation.directiveNamed? doc name <;> rfl
  rw [Validation.repeatedDirectives, Validation.repeatedDirectives, hunique ds]
  rfl

theorem inputValue (h : Rearranged doc bare) (d : InputValueDefinition) :
    Validation.inputValue bare d.unlocated = [] ↔ Validation.inputValue doc d = [] := by
  simp only [Validation.inputValue, InputValueDefinition.unlocated, List.append_eq_nil_iff,
    h.repeatedDirectives, h.directives, h.typeName]

theorem inputValues (h : Rearranged doc bare) (ds : List InputValueDefinition) :
    (ds.map InputValueDefinition.unlocated).flatMap (Validation.inputValue bare) = [] ↔
      ds.flatMap (Validation.inputValue doc) = [] := by
  simp only [List.flatMap_map, List.flatMap_eq_nil_iff, h.inputValue]

theorem field (h : Rearranged doc bare) (d : FieldDefinition) :
    Validation.field bare d.unlocated = [] ↔ Validation.field doc d = [] := by
  simp only [Validation.field, FieldDefinition.unlocated, List.append_eq_nil_iff,
    h.repeatedDirectives, h.directives, h.typeName, h.inputValues]

theorem inputField (h : Rearranged doc bare) (extension : Bool) (d : FieldDefinition) :
    Validation.inputField bare extension d.unlocated = [] ↔
      Validation.inputField doc extension d = [] := by
  simp only [Validation.inputField, FieldDefinition.unlocated, List.append_eq_nil_iff,
    h.repeatedDirectives, h.directives, h.typeName]

theorem enumValue (h : Rearranged doc bare) (d : EnumValueDefinition) :
    Validation.enumValue bare d.unlocated = [] ↔ Validation.enumValue doc d = [] := by
  simp only [Validation.enumValue, EnumValueDefinition.unlocated, List.append_eq_nil_iff,
    h.repeatedDirectives, h.directives]

theorem typeBody (h : Rearranged doc bare) (extension : Bool) (d : TypeDefinition) :
    Validation.typeBody bare extension d.unlocated = [] ↔
      Validation.typeBody doc extension d = [] := by
  obtain ⟨description, name, own, body, location⟩ := d
  cases body <;>
    simp only [Validation.typeBody, TypeDefinition.unlocated, TypeBody.unlocated,
      TypeDefinition.kind, TypeBody.kind, List.append_eq_nil_iff, List.flatMap_map,
      List.flatMap_eq_nil_iff, h.directives, h.typeName, h.field, h.inputField, h.enumValue]

theorem typeHead (h : Rearranged doc bare) (d : TypeDefinition) :
    Validation.typeHead bare [] false d.unlocated = Validation.typeHead doc [] false d := by
  have hdirectives : d.unlocated.directives = d.directives.map Directive.unlocated := rfl
  have hparts : partsBefore [] d.name = [] := rfl
  have hfields : (d.unlocated.body.fields?.getD []).flatMap (fun f =>
        argumentNames (d.name ++ "." ++ f.name) f.arguments) =
      (d.body.fields?.getD []).flatMap fun f =>
        argumentNames (d.name ++ "." ++ f.name) f.arguments := by
    change (fieldsOf d.unlocated).flatMap _ = (fieldsOf d).flatMap _
    rw [TypeDefinition.fieldsOf_unlocated, List.flatMap_map]
    exact List.flatMap_congr fun f _ => argumentNames_unlocated _ f.arguments
  simp only [Validation.typeHead, d.name_unlocated, hparts, List.flatMap_nil, hfields,
    TypeDefinition.enumValueNames_unlocated, TypeDefinition.fieldNames_unlocated]
  rw [hdirectives, h.repeatedDirectives]
  rfl

theorem schema (h : Rearranged doc bare) (d : SchemaDefinition) :
    Validation.schema bare [] false d.unlocated = [] ↔ Validation.schema doc [] false d = [] := by
  simp only [Validation.schema, SchemaDefinition.unlocated, List.filterMap_nil, List.flatMap_nil,
    List.append_eq_nil_iff, List.flatMap_eq_nil_iff, h.repeatedDirectives, h.directives,
    h.typeName, List.any_nil]

theorem directiveDefinition (h : Rearranged doc bare) (d : DirectiveDefinition) :
    Validation.directiveDefinition bare [] d.unlocated = [] ↔
      Validation.directiveDefinition doc [] d = [] := by
  simp only [Validation.directiveDefinition, DirectiveDefinition.unlocated, argumentNames_unlocated,
    List.append_eq_nil_iff, List.filterMap_nil, List.map_nil, h.inputValues]

theorem definition (h : Rearranged doc bare) {d : Definition} (hd : d.title?.isSome = true) :
    Validation.definition bare [] d.unlocated = [] ↔ Validation.definition doc [] d = [] := by
  cases d with
  | schema s => exact h.schema s
  | type t =>
    change Validation.type bare [] false t.unlocated = [] ↔ Validation.type doc [] false t = []
    rw [Validation.type, Validation.type, List.append_eq_nil_iff, List.append_eq_nil_iff,
      h.typeHead, h.typeBody]
  | directive r => exact h.directiveDefinition r
  | _ => simp [Definition.title?] at hd

theorem faults_eq_nil_iff (h : Rearranged doc bare) :
    (Document.mk bare).faults = [] ↔ (Document.mk doc).faults = [] := by
  rw [SchemaLoom.faults_eq_nil_iff h.plain, SchemaLoom.faults_eq_nil_iff h.plain']
  have hall : (∀ d ∈ bare, Validation.definition bare [] d = []) ↔
      ∀ d ∈ doc, Validation.definition doc [] d = [] := by
    constructor
    · intro hbare d hm
      refine (h.definition (h.plain d hm)).mp (hbare _ ?_)
      exact h.perm.mem_iff.mpr (List.mem_map_of_mem hm)
    · intro hdoc d hm
      obtain ⟨own, hown, rfl⟩ := List.mem_map.mp (h.perm.mem_iff.mp hm)
      exact (h.definition (h.plain own hown)).mpr (hdoc own hown)
  rw [hall, h.titles_perm.nodup_iff]

end Rearranged

end SchemaLoom
