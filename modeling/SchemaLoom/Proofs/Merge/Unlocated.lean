import SchemaLoom.Proofs.Document.Unlocated

/-! Merging without locations. What merging does depends on kinds and names only, so locations can
be left out before or after it. -/

namespace SchemaLoom

namespace Definition

@[simp] theorem name?_unlocated (d : Definition) : d.unlocated.name? = d.name? := by
  cases d <;> rfl

@[simp] theorem mergeKind_unlocated (d : Definition) : d.unlocated.mergeKind = d.mergeKind := by
  cases d with
  | type t => cases hb : t.body <;>
      simp [unlocated, TypeDefinition.unlocated, TypeBody.unlocated, mergeKind, TypeDefinition.kind,
        TypeBody.kind, hb]
  | _ => rfl

@[simp] theorem objectName?_unlocated (d : Definition) :
    d.unlocated.objectName? = d.objectName? := by
  simp [objectName?]

@[simp] theorem isSchema_unlocated (d : Definition) : d.unlocated.isSchema = d.isSchema := by
  simp [isSchema]

theorem fields_unlocated (d : Definition) :
    d.unlocated.fields = d.fields.map FieldDefinition.unlocated := by
  cases d with
  | type t => cases hb : t.body <;>
      simp [unlocated, TypeDefinition.unlocated, TypeBody.unlocated, fields, fields?,
        TypeBody.fields?, hb]
  | typeExtension t => cases hb : t.body <;>
      simp [unlocated, TypeDefinition.unlocated, TypeBody.unlocated, fields, fields?,
        TypeBody.fields?, hb]
  | _ => rfl

theorem unlocated_withFields (d : Definition) (fields : List FieldDefinition) :
    (d.withFields fields).unlocated =
      d.unlocated.withFields (fields.map FieldDefinition.unlocated) := by
  cases d with
  | type t => cases hb : t.body <;>
      simp [unlocated, TypeDefinition.unlocated, TypeBody.unlocated, withFields,
        TypeBody.withFields, hb]
  | typeExtension t => cases hb : t.body <;>
      simp [unlocated, TypeDefinition.unlocated, TypeBody.unlocated, withFields,
        TypeBody.withFields, hb]
  | _ => rfl

@[simp] theorem operationTypes_unlocated (d : Definition) :
    d.unlocated.operationTypes = d.operationTypes := by
  cases d <;> rfl

theorem unlocated_withOperationTypes (d : Definition) (types : List OperationType) :
    (d.withOperationTypes types).unlocated = d.unlocated.withOperationTypes types := by
  cases d <;> rfl

end Definition

theorem mergeFields_unlocated (first : Definition) (others : List Definition) :
    mergeFields first.unlocated (others.map Definition.unlocated) =
      (mergeFields first others).unlocated := by
  simp [mergeFields, Definition.unlocated_withFields, Definition.fields_unlocated,
    List.flatMap_map, List.map_flatMap]

theorem mergeOperationTypes_unlocated (first : Definition) (others : List Definition) :
    mergeOperationTypes first.unlocated (others.map Definition.unlocated) =
      (mergeOperationTypes first others).unlocated := by
  simp [mergeOperationTypes, Definition.unlocated_withOperationTypes, List.flatMap_map]

theorem filter_unlocated {keep : Definition → Bool}
    (h : ∀ d : Definition, keep d.unlocated = keep d) (ds : List Definition) :
    (ds.map Definition.unlocated).filter keep = (ds.filter keep).map Definition.unlocated := by
  rw [List.filter_map, Function.comp_def, funext h]

theorem filterMap_unlocated {f : Definition → Option α} {g : α → α}
    (h : ∀ d : Definition, f d.unlocated = (f d).map g) (ds : List Definition) :
    (ds.map Definition.unlocated).filterMap f = (ds.filterMap f).map g := by
  rw [List.filterMap_map, Function.comp_def, funext h, List.map_filterMap]

theorem mergeSchema_unlocated (ds : List Definition) :
    mergeSchema (ds.map Definition.unlocated) = (mergeSchema ds).map Definition.unlocated := by
  rw [mergeSchema, mergeSchema, filter_unlocated Definition.isSchema_unlocated]
  cases ds.filter Definition.isSchema with
  | nil => rfl
  | cons first others => exact congrArg some (mergeOperationTypes_unlocated first others)

/-! ### Groups of object types -/

def ObjectGroup.unlocated (g : ObjectGroup) : ObjectGroup :=
  ⟨g.first.unlocated, g.others.map Definition.unlocated⟩

theorem ObjectGroup.merged_unlocated (g : ObjectGroup) :
    g.unlocated.merged = g.merged.unlocated :=
  mergeFields_unlocated g.first g.others

theorem collectObject_unlocated (groups : Entries ObjectGroup) (d : Definition) :
    collectObject (groups.map fun e => (e.1, e.2.unlocated)) d.unlocated =
      (collectObject groups d).map fun e => (e.1, e.2.unlocated) := by
  unfold collectObject
  rw [Definition.objectName?_unlocated]
  cases d.objectName? with
  | none => rfl
  | some name =>
    simp only [Entries.get?_map]
    cases hg : Entries.get? name groups with
    | none => exact Entries.set_map ObjectGroup.unlocated name ⟨d, []⟩ groups
    | some g =>
      have hadd : g.unlocated.add d.unlocated = (g.add d).unlocated := by
        simp [ObjectGroup.unlocated, ObjectGroup.add]
      simp only [Option.map_some, hadd]
      exact Entries.set_map ObjectGroup.unlocated name (g.add d) groups

theorem objectGroups_unlocated (ds : List Definition) :
    objectGroups (ds.map Definition.unlocated) =
      (objectGroups ds).map fun e => (e.1, e.2.unlocated) := by
  have hfold : ∀ groups : Entries ObjectGroup, (ds.map Definition.unlocated).foldl collectObject
      (groups.map fun e => (e.1, e.2.unlocated)) =
        (ds.foldl collectObject groups).map fun e => (e.1, e.2.unlocated) := by
    induction ds with
    | nil => exact fun _ => rfl
    | cons d rest ih =>
      intro groups
      rw [List.map_cons, List.foldl_cons, collectObject_unlocated, ih]
      rfl
  exact hfold []

theorem duplicates_unlocated (ds : List Definition) :
    duplicates (ds.map Definition.unlocated) =
      (duplicates ds).map fun e => (e.1, e.2.unlocated) := by
  rw [duplicates, objectGroups_unlocated, List.filter_map]
  refine congrArg _ (List.filter_congr fun e _ => ?_)
  simp [ObjectGroup.isRepeated, ObjectGroup.unlocated]

theorem hasNameIn_unlocated (names : List Name) (d : Definition) :
    hasNameIn names d.unlocated = hasNameIn names d := by
  simp [hasNameIn]

theorem keys_duplicates_unlocated (ds : List Definition) :
    Entries.keys (duplicates (ds.map Definition.unlocated)) = Entries.keys (duplicates ds) := by
  simp [duplicates_unlocated, Entries.keys, Function.comp_def]

theorem mergeDefinitions_unlocated (ds : List Definition) :
    mergeDefinitions (ds.map Definition.unlocated) =
      (mergeDefinitions ds).map Definition.unlocated := by
  have hkept : (ds.map Definition.unlocated).filter (fun d => !d.isSchema &&
      !hasNameIn (Entries.keys (duplicates (ds.map Definition.unlocated))) d) =
      (ds.filter fun d => !d.isSchema && !hasNameIn (Entries.keys (duplicates ds)) d).map
        Definition.unlocated := by
    simp [keys_duplicates_unlocated, List.filter_map, Function.comp_def, hasNameIn_unlocated]
  have hmerged : (duplicates (ds.map Definition.unlocated)).map (fun e => e.2.merged) =
      ((duplicates ds).map fun e => e.2.merged).map Definition.unlocated := by
    simp [duplicates_unlocated, Function.comp_def, ObjectGroup.merged_unlocated]
  have hschema : (mergeSchema (ds.map Definition.unlocated)).toList =
      (mergeSchema ds).toList.map Definition.unlocated := by
    rw [mergeSchema_unlocated]
    cases mergeSchema ds <;> rfl
  unfold mergeDefinitions
  rw [List.map_append, List.map_append, ← hkept, ← hmerged, ← hschema]

end SchemaLoom
