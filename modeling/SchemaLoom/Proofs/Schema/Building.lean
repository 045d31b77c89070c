import SchemaLoom.Proofs.Results
import SchemaLoom.Proofs.Schema.Inputs
import SchemaLoom.Proofs.Schema.Validity

/-! Schemas of rearranged definitions. Every type comes out the same, so the schemas differ at most
in the order of their types. -/

namespace SchemaLoom

namespace Build

open Validation

section Parts

variable {doc bare : List Definition}

theorem argumentsOf_unlocated (h : Rearranged doc bare) (ds : List InputValueDefinition) :
    argumentsOf bare (inputTypes bare) (ds.map InputValueDefinition.unlocated) =
      unlocated (argumentsOf doc (inputTypes doc) ds) := by
  have harguments : ∀ d : InputValueDefinition,
      inputField bare (inputTypes bare).fields .argumentNotInput d.unlocated.description
          d.unlocated.name d.unlocated.type d.unlocated.default d.unlocated.directives =
        unlocated (inputField doc (inputTypes doc).fields .argumentNotInput d.description d.name
          d.type d.default d.directives) := by
    intro d
    rw [fields_inputTypes h]
    exact inputField_unlocated h (inputTypes doc).fields _ rfl d.description d.name d.type d.default
      d.directives
  rw [argumentsOf, argumentsOf, mapM_map_unlocated harguments, unlocated_bind]
  rfl

theorem field_unlocated (h : Rearranged doc bare) (d : FieldDefinition) :
    field bare (inputTypes bare) d.unlocated = unlocated (field doc (inputTypes doc) d) := by
  have harguments : argumentsOf bare (inputTypes bare) d.unlocated.arguments =
      unlocated (argumentsOf doc (inputTypes doc) d.arguments) :=
    argumentsOf_unlocated h d.arguments
  have hreason : deprecation d.unlocated.directives = unlocated (deprecation d.directives) :=
    deprecation_unlocated d.directives
  have htype : d.unlocated.type = d.type := rfl
  rw [field, field, unlocated_bind, unlocated_kindOf, h.kindOf, htype]
  refine congrArg _ (funext fun kind => ?_)
  rw [unlocated_bind, harguments]
  refine congrArg _ (funext fun arguments => ?_)
  rw [unlocated_bind, hreason]
  refine congrArg _ (funext fun reason => ?_)
  cases isOutput kind <;> rfl

theorem partsOf_of_plain (h : IsPlain doc) (d : TypeDefinition) : partsOf doc d = [d] := by
  rw [partsOf, extensionsOf_of_plain h]

theorem outputFields_unlocated (h : Rearranged doc bare) (d : TypeDefinition) :
    outputFields bare (inputTypes bare) d.unlocated =
      unlocated (outputFields doc (inputTypes doc) d) := by
  rw [outputFields, outputFields, unlocated_noteWithin, partsOf_of_plain h.plain,
    partsOf_of_plain h.plain', List.flatMap_singleton, List.flatMap_singleton,
    TypeDefinition.fieldsOf_unlocated, mapM_map_unlocated (field_unlocated h), d.name_unlocated,
    unlocated_bind]
  rfl

theorem references_unlocated (h : Rearranged doc bare) (d : TypeDefinition) (part : TypePart)
    (kind : TypeKind) {otherwise : BuildFault} (hplace : otherwise.unlocated = otherwise)
    {names : TypeDefinition → List Name} (hnames : names d.unlocated = names d) :
    references bare d.unlocated part kind otherwise names =
      unlocated (references doc d part kind otherwise names) := by
  rw [references, references, unlocated_bind, unlocated_noteWithin, partsOf_of_plain h.plain,
    partsOf_of_plain h.plain', List.flatMap_singleton, List.flatMap_singleton, hnames,
    d.name_unlocated, unlocated_mapM, h.kindOf]
  simp only [unlocated_bind, unlocated_kindOf, unlocated_pure]
  refine congrArg _ (funext fun found => ?_)
  split
  · rfl
  · exact congrArg Except.error hplace.symm

theorem interfacesOf_unlocated (d : TypeDefinition) :
    interfacesOf d.unlocated = interfacesOf d := by
  obtain ⟨_, _, _, body, _⟩ := d
  cases body <;> rfl

theorem membersOf_unlocated (d : TypeDefinition) : membersOf d.unlocated = membersOf d := by
  obtain ⟨_, _, _, body, _⟩ := d
  cases body <;> rfl

theorem specification_unlocated (ds : List Directive) :
    specification (ds.map Directive.unlocated) = unlocated (specification ds) := by
  rw [specification, specification, find?_directive_unlocated]
  cases ds.find? (·.name = "specifiedBy") with
  | none => rfl
  | some d =>
    simp only [Option.map_some, argument?_unlocated]
    cases argument? d "url" with
    | none => rfl
    | some a =>
      obtain ⟨_, value, _⟩ := a
      cases value <;> rfl

theorem valuesOf_unlocated (d : TypeDefinition) :
    valuesOf d.unlocated =
      unlocated (valuesOf d >>= fun values => pure (values.map EnumValueDefinition.unlocated)) := by
  obtain ⟨_, _, _, body, _⟩ := d
  cases body <;> rfl

theorem enumValue_unlocated (value : EnumValueDefinition) :
    enumValue value.unlocated = unlocated (enumValue value) := by
  have hreason : deprecation value.unlocated.directives = unlocated (deprecation value.directives) :=
    deprecation_unlocated value.directives
  rw [enumValue, enumValue, hreason, unlocated_bind]
  rfl

theorem enumValues_unlocated (h : Rearranged doc bare) (d : TypeDefinition) :
    enumValues bare d.unlocated = unlocated (enumValues doc d) := by
  have hpart : ((valuesOf d.unlocated) >>= fun values => values.mapM enumValue) =
      unlocated (valuesOf d >>= fun values => values.mapM enumValue) := by
    rw [valuesOf_unlocated]
    simp only [unlocated_bind, unlocated_pure, bind_assoc, pure_bind,
      mapM_map_unlocated enumValue_unlocated]
  rw [enumValues, enumValues, partsOf_of_plain h.plain, partsOf_of_plain h.plain', unlocated_bind,
    unlocated_mapM, List.mapM_cons, List.mapM_cons, hpart]
  rfl

theorem shape_unlocated (h : Rearranged doc bare) (d : TypeDefinition) :
    shape bare (inputTypes bare) d.unlocated = unlocated (shape doc (inputTypes doc) d) := by
  have hinterfaces : interfaces bare d.unlocated = unlocated (interfaces doc d) :=
    references_unlocated h d _ _ rfl (interfacesOf_unlocated d)
  have hmembers : references bare d.unlocated .members .object (.notObjects d.name) membersOf =
      unlocated (references doc d .members .object (.notObjects d.name) membersOf) :=
    references_unlocated h d _ _ rfl (membersOf_unlocated d)
  have hspecification : specification d.unlocated.directives =
      unlocated (specification d.directives) := specification_unlocated d.directives
  rw [shape, shape, TypeDefinition.kind_unlocated]
  cases d.kind with
  | scalar => simp only [hspecification, unlocated_bind, unlocated_pure]
  | object =>
    simp only [hinterfaces, outputFields_unlocated h, unlocated_bind, unlocated_pure]
  | interface =>
    simp only [hinterfaces, outputFields_unlocated h, unlocated_bind, unlocated_pure]
  | union => simp only [d.name_unlocated, hmembers, unlocated_bind, unlocated_pure]
  | enum => simp only [enumValues_unlocated h, unlocated_bind, unlocated_pure]
  | inputObject =>
    simp only [d.name_unlocated, fields_inputTypes h, h.isOneOf, unlocated_bind, unlocated_pure]

theorem namedType_unlocated (h : Rearranged doc bare) (d : TypeDefinition) :
    namedType bare (inputTypes bare) d.unlocated =
      unlocated (namedType doc (inputTypes doc) d) := by
  rw [namedType, namedType, d.name_unlocated]
  cases standardType? d.name with
  | some type => rfl
  | none =>
    simp only [shape_unlocated h, unlocated_bind, unlocated_pure]
    rfl

theorem directiveType_unlocated (h : Rearranged doc bare) (d : DirectiveDefinition) :
    directiveType bare (inputTypes bare) d.unlocated =
      unlocated (directiveType doc (inputTypes doc) d) := by
  have harguments : argumentsOf bare (inputTypes bare) d.unlocated.arguments =
      unlocated (argumentsOf doc (inputTypes doc) d.arguments) :=
    argumentsOf_unlocated h d.arguments
  rw [directiveType, directiveType, harguments, unlocated_bind]
  rfl

theorem checkContents_unlocated (h : Rearranged doc bare) (d : TypeDefinition) :
    checkContents bare d.unlocated = unlocated (checkContents doc d) := by
  have hspecification : specification d.unlocated.directives =
      unlocated (specification d.directives) := specification_unlocated d.directives
  rw [checkContents, checkContents, TypeDefinition.kind_unlocated]
  cases d.kind with
  | enum => simp only [enumValues_unlocated h, unlocated_bind, unlocated_pure]
  | scalar => simp only [hspecification, unlocated_bind, unlocated_pure]
  | _ => rfl

theorem checkEarly_unlocated (h : Rearranged doc bare) (d : TypeDefinition) :
    checkEarly bare d.unlocated = unlocated (checkEarly doc d) := by
  rw [checkEarly, checkEarly, d.name_unlocated, TypeDefinition.kind_unlocated,
    checkContents_unlocated h, extensionsOf_of_plain h.plain, extensionsOf_of_plain h.plain']
  by_cases hstandard : (standardType? d.name).isSome = true
  · rw [if_pos hstandard, if_pos hstandard]
    rfl
  · rw [if_neg hstandard, if_neg hstandard, unlocated_bind]
    rfl

end Parts

/-! ### Schemas -/

theorem name_of_namedType {doc : List Definition} {inputs : InputTypes} {d : TypeDefinition}
    {t : NamedType} (h : namedType doc inputs d = .ok t) : t.name = d.name := by
  rw [namedType] at h
  cases hs : standardType? d.name with
  | some type =>
    simp only [hs] at h
    obtain rfl : type = t := Except.ok.inj h
    simpa using List.find?_some hs
  | none =>
    simp only [hs] at h
    cases hshape : shape doc inputs d with
    | error fault => simp [hshape, bind, Except.bind] at h
    | ok own =>
      rw [hshape] at h
      obtain rfl := Except.ok.inj h
      rfl

theorem checkAllEarly_iff {doc bare : List Definition} (h : Rearranged doc bare) :
    checkAllEarly bare = .ok () ↔ checkAllEarly doc = .ok () := by
  have hearly : (∀ d ∈ bare.filterMap Definition.typeDefined?, checkEarly bare d = .ok ()) ↔
      ∀ d ∈ doc.filterMap Definition.typeDefined?, checkEarly doc d = .ok () := by
    simp only [h.typeDefinitions_perm.mem_iff, List.forall_mem_map, checkEarly_unlocated h,
      unlocated_eq_ok_iff]
  rw [checkAllEarly, checkAllEarly, h.operationTypes, h.kindOf]
  simp only [bind_eq_ok_iff, forIn_check_eq_ok_iff, hearly]

/-- The parts of which a schema is assembled, if it can be built. -/
theorem schema_eq_ok_iff_parts {doc : List Definition} {s : Schema} :
    schema doc = .ok s ↔ checkAllEarly doc = .ok () ∧ ∃ directiveTypes types,
      (doc.filterMap Definition.directiveDefined?).mapM (directiveType doc (inputTypes doc)) =
        .ok directiveTypes ∧
      (lastOfEach TypeDefinition.name (doc.filterMap Definition.typeDefined?)).mapM
        (namedType doc (inputTypes doc)) = .ok types ∧
      assemble doc directiveTypes types = s := by
  rw [schema]
  constructor
  · intro hs
    obtain ⟨_, hc, hs⟩ := exists_of_bind_eq_ok hs
    obtain ⟨directiveTypes, hd, hs⟩ := exists_of_bind_eq_ok hs
    obtain ⟨types, ht, hs⟩ := exists_of_bind_eq_ok hs
    exact ⟨hc, directiveTypes, types, hd, ht, Except.ok.inj hs⟩
  · rintro ⟨hc, directiveTypes, types, hd, ht, rfl⟩
    rw [hc]
    simp only [hd, ht, bind, Except.bind, pure, Except.pure]

theorem schema_eq_ok_iff {doc : List Definition} (hnd : (titles doc).Nodup) {s : Schema} :
    schema doc = .ok s ↔ checkAllEarly doc = .ok () ∧ ∃ directiveTypes types,
      (doc.filterMap Definition.directiveDefined?).mapM (directiveType doc (inputTypes doc)) =
        .ok directiveTypes ∧
      (doc.filterMap Definition.typeDefined?).mapM (namedType doc (inputTypes doc)) = .ok types ∧
      assemble doc directiveTypes types = s := by
  rw [schema_eq_ok_iff_parts, lastOfEach_of_nodup (nodup_definedTypeNames hnd)]

end Build

/-- Schemas that have the same to offer: they differ at most in the order of their types. -/
structure Schema.Same (s t : Schema) : Prop where
  query : s.query = t.query
  mutation : s.mutation = t.mutation
  subscription : s.subscription = t.subscription
  description : s.description = t.description
  directiveTypes : s.directiveTypes = t.directiveTypes
  types : s.types.Perm t.types
  type? : ∀ name, s.type? name = t.type? name

namespace Build

section Assembling

variable {doc bare : List Definition} {types more : List NamedType} {others : List Name}

theorem allTypes_perm (hp : more.Perm types) (others : List Name) :
    ∃ missing, allTypes more others = more ++ missing ∧
      allTypes types others = types ++ missing := by
  refine ⟨_, rfl, congrArg (types ++ ·) (List.filter_congr fun t _ => ?_)⟩
  have hused := ((hp.append_right introspectionTypes).flatMap_right referencedNames).append_right
    others
  rw [hp.any_eq, hused.contains_eq]

theorem assemble_same (h : Rearranged doc bare) (directiveTypes : List DirectiveType)
    (hp : more.Perm types) (hnd : (types.map NamedType.name).Nodup) :
    (assemble bare directiveTypes more).Same (assemble doc directiveTypes types) := by
  have hroots := h.rootType
  have hdescription :
      (schemaDefinition? bare).bind (fun d => d.description.map StringLiteral.text) =
        (schemaDefinition? doc).bind fun d => d.description.map StringLiteral.text := by
    rw [h.schemaDefinition?]
    cases schemaDefinition? doc <;> rfl
  obtain ⟨missing, hmore, htypes⟩ := allTypes_perm hp
    ((rootType doc .query "Query").toList ++ (rootType doc .mutation "Mutation").toList
      ++ (rootType doc .subscription "Subscription").toList
      ++ directiveTypes.flatMap fun d => typesOf d.arguments)
  have hown : (assemble doc directiveTypes types).types = types ++ missing := htypes
  have hother : (assemble bare directiveTypes more).types = more ++ missing := by
    simp only [assemble, hroots]
    exact hmore
  refine ⟨?_, ?_, ?_, hdescription, rfl, ?_, fun name => ?_⟩
  · simp only [assemble, hroots]
  · simp only [assemble, hroots]
  · simp only [assemble, hroots]
  · rw [hown, hother]
    exact hp.append_right missing
  · have hmorend := (hp.map NamedType.name).nodup_iff.mpr hnd
    rw [Schema.type?, Schema.type?, hown, hother, List.find?_append, List.find?_append,
      find?_key_perm hmorend hp]

end Assembling

variable {doc bare : List Definition} {s : Schema}

theorem directiveTypes_unlocated (h : Rearranged doc bare) :
    (bare.filterMap Definition.directiveDefined?).mapM (directiveType bare (inputTypes bare)) =
      unlocated ((doc.filterMap Definition.directiveDefined?).mapM
        (directiveType doc (inputTypes doc))) := by
  rw [h.directiveDefinitions]
  exact mapM_map_unlocated (directiveType_unlocated h) _

theorem namedTypes_unlocated (h : Rearranged doc bare) :
    ((doc.filterMap Definition.typeDefined?).map TypeDefinition.unlocated).mapM
        (namedType bare (inputTypes bare)) =
      unlocated ((doc.filterMap Definition.typeDefined?).mapM (namedType doc (inputTypes doc))) :=
  mapM_map_unlocated (namedType_unlocated h) _

theorem nodup_names_of_mapM (hnd : (titles doc).Nodup) {types : List NamedType}
    (ht : (doc.filterMap Definition.typeDefined?).mapM (namedType doc (inputTypes doc)) =
      .ok types) : (types.map NamedType.name).Nodup := by
  rw [mapM_keys (fun d t => name_of_namedType) ht]
  exact nodup_definedTypeNames hnd

/-- Neither the order of definitions nor their locations change a schema. -/
theorem schema_of_rearranged (h : Rearranged doc bare) (hs : schema doc = .ok s) :
    ∃ t, schema bare = .ok t ∧ t.Same s := by
  obtain ⟨hc, directiveTypes, types, hd, ht, rfl⟩ := (schema_eq_ok_iff h.nodup).mp hs
  have hbare := namedTypes_unlocated h
  rw [ht, unlocated_ok] at hbare
  obtain ⟨more, hmore, hp⟩ := mapM_perm h.typeDefinitions_perm.symm hbare
  refine ⟨assemble bare directiveTypes more, (schema_eq_ok_iff h.nodup').mpr ?_,
    assemble_same h directiveTypes hp.symm (nodup_names_of_mapM h.nodup ht)⟩
  exact ⟨(checkAllEarly_iff h).mpr hc, directiveTypes, more,
    by rw [directiveTypes_unlocated h, hd, unlocated_ok], hmore, rfl⟩

theorem schema_of_bare (h : Rearranged doc bare) (hs : schema bare = .ok s) :
    ∃ t, schema doc = .ok t ∧ s.Same t := by
  obtain ⟨hc, directiveTypes, more, hd, hmore, rfl⟩ := (schema_eq_ok_iff h.nodup').mp hs
  obtain ⟨types, htypes, hp⟩ := mapM_perm h.typeDefinitions_perm hmore
  rw [namedTypes_unlocated h, unlocated_eq_ok_iff] at htypes
  rw [directiveTypes_unlocated h, unlocated_eq_ok_iff] at hd
  refine ⟨assemble doc directiveTypes types, (schema_eq_ok_iff h.nodup).mpr ?_,
    assemble_same h directiveTypes hp (nodup_names_of_mapM h.nodup htypes)⟩
  exact ⟨(checkAllEarly_iff h).mp hc, directiveTypes, types, hd, htypes, rfl⟩

end Build

end SchemaLoom
