import Mathlib.Data.List.Nodup
import Mathlib.Data.List.Perm.Basic
import SchemaLoom.Proofs.Merge.Unlocated
import SchemaLoom.Proofs.Results
import SchemaLoom.Proofs.Schema.Titles
import SchemaLoom.Schema.Build

/-! Definitions in another order and without their locations. If each of them defines something
else, all that is looked up in them by name is found as well. -/

namespace SchemaLoom

open Validation Build

@[simp] theorem Definition.title?_unlocated (d : Definition) : d.unlocated.title? = d.title? := by
  cases d <;> rfl

namespace TypeDefinition

@[simp] theorem name_unlocated (d : TypeDefinition) : d.unlocated.name = d.name := rfl

@[simp] theorem kind_unlocated (d : TypeDefinition) : d.unlocated.kind = d.kind := by
  obtain ⟨_, _, _, body, _⟩ := d
  cases body <;> rfl

theorem enumValueNames_unlocated (d : TypeDefinition) :
    enumValueNames d.unlocated = enumValueNames d := by
  obtain ⟨_, _, _, body, _⟩ := d
  cases body with
  | enum values => exact List.map_map ..
  | _ => rfl

theorem fieldsOf_unlocated (d : TypeDefinition) :
    fieldsOf d.unlocated = (fieldsOf d).map FieldDefinition.unlocated := by
  obtain ⟨_, _, _, body, _⟩ := d
  cases body <;> rfl

theorem fieldNames_unlocated (d : TypeDefinition) : fieldNames d.unlocated = fieldNames d := by
  change (fieldsOf d.unlocated).map FieldDefinition.name = _
  rw [fieldsOf_unlocated, List.map_map]
  rfl

end TypeDefinition

/-- The second list has the definitions of the first one, without locations and in some order, but
with the same order of the directive definitions. -/
structure Rearranged (doc bare : List Definition) : Prop where
  perm : bare.Perm (doc.map Definition.unlocated)
  plain : IsPlain doc
  nodup : (titles doc).Nodup
  directiveDefinitions : bare.filterMap Definition.directiveDefined? =
    (doc.filterMap Definition.directiveDefined?).map DirectiveDefinition.unlocated

section Titled

variable {f : Definition → Option α} {doc bare : List Definition}

theorem map_title_sublist {title : α → Title}
    (hf : ∀ d a, f d = some a → d.title? = some (title a)) (ds : List Definition) :
    ((ds.filterMap f).map fun a => some (title a)).Sublist (titles ds) := by
  induction ds with
  | nil => exact .slnil
  | cons d rest ih =>
    cases hd : f d with
    | none =>
      rw [List.filterMap_cons_none hd]
      exact ih.cons _
    | some a =>
      rw [List.filterMap_cons_some hd, List.map_cons, ← hf d a hd]
      exact ih.cons_cons _

theorem nodup_filterMap_of_titles {title : α → Title}
    (hf : ∀ d a, f d = some a → d.title? = some (title a)) (h : (titles doc).Nodup) :
    ((doc.filterMap f).map title).Nodup := by
  have hnd := h.sublist (map_title_sublist hf doc)
  have hmap : (doc.filterMap f).map (fun a => some (title a)) =
      ((doc.filterMap f).map title).map some := by rw [List.map_map]; rfl
  rw [hmap] at hnd
  exact hnd.of_map _

theorem title?_of_typeDefined? (d : Definition) (t : TypeDefinition)
    (h : d.typeDefined? = some t) : d.title? = some (.type t.name) := by
  cases d with
  | type own => exact Option.some.inj h ▸ rfl
  | _ => cases h

theorem title?_of_schemaDefined? (d : Definition) (s : SchemaDefinition)
    (h : d.schemaDefined? = some s) : d.title? = some .schema := by
  cases d with
  | schema own => rfl
  | _ => cases h

theorem nodup_definedTypeNames (h : (titles doc).Nodup) : (definedTypeNames doc).Nodup := by
  have hnd := nodup_filterMap_of_titles title?_of_typeDefined? h
  have hmap : (doc.filterMap Definition.typeDefined?).map (fun t => Title.type t.name) =
      (definedTypeNames doc).map Title.type := by rw [definedTypeNames, List.map_map]; rfl
  rw [hmap] at hnd
  exact hnd.of_map _

/-- There is one schema definition at most. -/
theorem length_schemaDefinitions_le (h : (titles doc).Nodup) :
    (doc.filterMap Definition.schemaDefined?).length ≤ 1 := by
  have hnd := nodup_filterMap_of_titles title?_of_schemaDefined? h
  rw [List.map_const'] at hnd
  exact List.nodup_replicate.mp hnd

theorem extensionsOf_of_plain (h : IsPlain doc) (name : Name) : extensionsOf doc name = [] := by
  have hnone : doc.filterMap Definition.typeExtended? = [] := by
    refine List.filterMap_eq_nil_iff.mpr fun d hm => ?_
    have hd := h d hm
    cases d with
    | typeExtension t => simp [Definition.title?] at hd
    | _ => rfl
  rw [extensionsOf, hnone, List.filter_nil]

theorem schemaExtensions_of_plain (h : IsPlain doc) :
    doc.filterMap Definition.schemaExtended? = [] := by
  refine List.filterMap_eq_nil_iff.mpr fun d hm => ?_
  have hd := h d hm
  cases d with
  | schemaExtension s => simp [Definition.title?] at hd
  | _ => rfl

theorem typeNamed?_eq (doc : List Definition) (name : Name) :
    typeNamed? doc name =
      (doc.filterMap Definition.typeDefined?).reverse.find? (·.name = name) := by
  rw [typeNamed?, ← List.filterMap_reverse]
  generalize doc.reverse = ds
  induction ds with
  | nil => rfl
  | cons d rest ih =>
    rw [List.findSome?_cons, ih]
    cases hd : d.typeDefined? with
    | none => rw [List.filterMap_cons_none hd]; rfl
    | some t =>
      rw [List.filterMap_cons_some hd, List.find?_cons, Option.filter]
      cases decide (t.name = name) <;> rfl

theorem typeNamed?_eq_some_iff (h : (titles doc).Nodup) {name : Name} {t : TypeDefinition} :
    typeNamed? doc name = some t ↔
      t ∈ doc.filterMap Definition.typeDefined? ∧ t.name = name := by
  have hnd : ((doc.filterMap Definition.typeDefined?).reverse.map TypeDefinition.name).Nodup := by
    rw [List.map_reverse, List.nodup_reverse]
    exact nodup_definedTypeNames h
  rw [typeNamed?_eq, find?_key_eq_some_iff hnd, List.mem_reverse]

end Titled

namespace Rearranged

variable {doc bare : List Definition}

theorem titles_perm (h : Rearranged doc bare) : (titles bare).Perm (titles doc) := by
  have hperm := h.perm.map Definition.title?
  rwa [List.map_map, Function.comp_def, funext Definition.title?_unlocated] at hperm

theorem nodup' (h : Rearranged doc bare) : (titles bare).Nodup :=
  h.titles_perm.nodup_iff.mpr h.nodup

theorem plain' (h : Rearranged doc bare) : IsPlain bare := by
  intro d hd
  obtain ⟨own, hm, rfl⟩ := List.mem_map.mp (h.perm.mem_iff.mp hd)
  rw [Definition.title?_unlocated]
  exact h.plain own hm

theorem filterMap_perm (h : Rearranged doc bare) {f : Definition → Option α} {g : α → α}
    (hf : ∀ d : Definition, f d.unlocated = (f d).map g) :
    (bare.filterMap f).Perm ((doc.filterMap f).map g) := by
  rw [← filterMap_unlocated hf]
  exact h.perm.filterMap f

/-- Definitions are rearranged if only their locations are left out. -/
theorem of_unlocated {ds : List Definition} (h : Rearranged doc (ds.map Definition.unlocated)) :
    Rearranged ds (ds.map Definition.unlocated) := by
  refine ⟨.refl _, fun d hd => ?_, ?_, filterMap_unlocated (fun d => by cases d <;> rfl) ds⟩
  · rw [← Definition.title?_unlocated]
    exact h.plain' _ (List.mem_map_of_mem hd)
  · have hnd := h.nodup'
    rwa [titles, List.map_map, Function.comp_def, funext Definition.title?_unlocated] at hnd

theorem typeDefinitions_perm (h : Rearranged doc bare) :
    (bare.filterMap Definition.typeDefined?).Perm
      ((doc.filterMap Definition.typeDefined?).map TypeDefinition.unlocated) :=
  h.filterMap_perm fun d => by cases d <;> rfl

theorem mem_definedTypeNames (h : Rearranged doc bare) (name : Name) :
    name ∈ definedTypeNames bare ↔ name ∈ definedTypeNames doc := by
  rw [mem_definedTypeNames_iff, mem_definedTypeNames_iff, h.titles_perm.mem_iff]

theorem typeNamed? (h : Rearranged doc bare) (name : Name) :
    Validation.typeNamed? bare name =
      (Validation.typeNamed? doc name).map TypeDefinition.unlocated := by
  refine Option.ext fun t => ?_
  rw [typeNamed?_eq_some_iff h.nodup', h.typeDefinitions_perm.mem_iff, List.mem_map,
    Option.map_eq_some_iff]
  constructor
  · rintro ⟨⟨own, hm, rfl⟩, hname⟩
    exact ⟨own, (typeNamed?_eq_some_iff h.nodup).mpr ⟨hm, hname⟩, rfl⟩
  · rintro ⟨own, hown, rfl⟩
    obtain ⟨hm, hname⟩ := (typeNamed?_eq_some_iff h.nodup).mp hown
    exact ⟨⟨own, hm, rfl⟩, hname⟩

theorem directiveNamed? (h : Rearranged doc bare) (name : Name) :
    Validation.directiveNamed? bare name =
      (Validation.directiveNamed? doc name).map DirectiveDefinition.unlocated := by
  have hstandard : standardDirectives = standardDirectives.map DirectiveDefinition.unlocated := rfl
  rw [Validation.directiveNamed?, h.directiveDefinitions, hstandard, ← List.map_append,
    ← List.map_reverse, List.find?_map]
  rfl

theorem kindOf (h : Rearranged doc bare) : Build.kindOf bare = Build.kindOf doc := by
  funext name
  have hkind : kind? bare name = kind? doc name := by
    rw [kind?, kind?, h.typeNamed?, Option.map_map, Function.comp_def,
      funext TypeDefinition.kind_unlocated]
  rw [Build.kindOf, Build.kindOf, hkind]

theorem enumNames (h : Rearranged doc bare) : Build.enumNames bare = Build.enumNames doc := by
  funext name
  simp only [Build.enumNames, h.typeNamed?, partsOf, extensionsOf_of_plain h.plain,
    extensionsOf_of_plain h.plain']
  cases standardType? name with
  | some type =>
    obtain ⟨_, _, shape⟩ := type
    cases shape <;> rfl
  | none =>
    cases Validation.typeNamed? doc name with
    | none => rfl
    | some t => simp [TypeDefinition.enumValueNames_unlocated]

theorem isOneOf (h : Rearranged doc bare) : Build.isOneOf bare = Build.isOneOf doc := by
  funext name
  rw [Build.isOneOf, Build.isOneOf, h.typeNamed?]
  cases Validation.typeNamed? doc name with
  | none => rfl
  | some t => exact List.any_map ..

theorem schemaDefinition? (h : Rearranged doc bare) :
    Build.schemaDefinition? bare =
      (Build.schemaDefinition? doc).map SchemaDefinition.unlocated := by
  have hperm : (bare.filterMap Definition.schemaDefined?).Perm
      ((doc.filterMap Definition.schemaDefined?).map SchemaDefinition.unlocated) :=
    h.filterMap_perm fun d => by cases d <;> rfl
  have hle := length_schemaDefinitions_le h.nodup
  have heq : bare.filterMap Definition.schemaDefined? =
      (doc.filterMap Definition.schemaDefined?).map SchemaDefinition.unlocated := by
    cases hs : doc.filterMap Definition.schemaDefined? with
    | nil => simpa [hs] using hperm
    | cons s rest =>
      obtain rfl : rest = [] := by
        rw [hs, List.length_cons] at hle
        exact List.eq_nil_of_length_eq_zero (by omega)
      simpa [hs] using hperm
  rw [Build.schemaDefinition?, Build.schemaDefinition?, heq, List.getLast?_map]

theorem operationTypes (h : Rearranged doc bare) :
    Build.operationTypes bare = Build.operationTypes doc := by
  rw [Build.operationTypes, Build.operationTypes, schemaExtensions_of_plain h.plain,
    schemaExtensions_of_plain h.plain', h.schemaDefinition?]
  cases Build.schemaDefinition? doc <;> rfl

theorem rootType (h : Rearranged doc bare) : Build.rootType bare = Build.rootType doc := by
  funext operation usual
  have hany : bare.any Definition.isSchema = doc.any Definition.isSchema := by
    rw [Bool.eq_iff_iff, any_isSchema_iff, any_isSchema_iff, h.titles_perm.mem_iff]
  have hmem : (definedTypeNames bare).contains usual = (definedTypeNames doc).contains usual := by
    rw [Bool.eq_iff_iff, List.contains_iff_mem, List.contains_iff_mem, h.mem_definedTypeNames]
  rw [Build.rootType, Build.rootType, h.operationTypes, hany, hmem]

end Rearranged

end SchemaLoom
