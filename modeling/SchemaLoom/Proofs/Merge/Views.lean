import SchemaLoom.Proofs.Merge.Grouping

/-! Three views of a list of definitions: the object types by name, the schema definitions, and the
rest. Merging leaves one definition of each object type, one schema definition, and of the rest all
that have no name of an object type that is defined more than once. -/

namespace SchemaLoom

namespace Definition

/-- Neither an object type definition nor a schema definition. -/
def isOther (d : Definition) : Bool := d.mergeKind = .other

theorem objectName?_eq_some_iff {d : Definition} {name : Name} :
    d.objectName? = some name ↔
      ∃ t interfaces fields, d = .type t ∧ t.name = name ∧ t.body = .object interfaces fields := by
  cases d with
  | type t => cases hb : t.body <;>
      simp [objectName?, mergeKind, name?, TypeDefinition.kind, TypeBody.kind, hb]
  | _ => simp [objectName?, mergeKind]

theorem mergeKind_of_objectName? {d : Definition} {name : Name} (h : d.objectName? = some name) :
    d.mergeKind = .objectType := by
  by_contra hk
  simp [objectName?, hk] at h

theorem name?_of_objectName? {d : Definition} {name : Name} (h : d.objectName? = some name) :
    d.name? = some name := by
  have hk := mergeKind_of_objectName? h
  simpa [objectName?, hk] using h

theorem name?_of_isSchema {d : Definition} (h : d.isSchema = true) : d.name? = none := by
  cases d with
  | schema _ => rfl
  | type t => cases hb : t.body <;>
      simp [isSchema, mergeKind, TypeDefinition.kind, TypeBody.kind, hb] at h
  | _ => simp [isSchema, mergeKind] at h

@[simp] theorem name?_withFields (fields : List FieldDefinition) (d : Definition) :
    (d.withFields fields).name? = d.name? := by
  cases d <;> rfl

@[simp] theorem mergeKind_withFields (fields : List FieldDefinition) (d : Definition) :
    (d.withFields fields).mergeKind = d.mergeKind := by
  cases d with
  | type t => cases hb : t.body <;>
      simp [withFields, mergeKind, TypeDefinition.kind, TypeBody.withFields, TypeBody.kind, hb]
  | _ => rfl

@[simp] theorem objectName?_withFields (fields : List FieldDefinition) (d : Definition) :
    (d.withFields fields).objectName? = d.objectName? := by
  simp [objectName?]

@[simp] theorem mergeKind_withOperationTypes (types : List OperationType) (d : Definition) :
    (d.withOperationTypes types).mergeKind = d.mergeKind := by
  cases d <;> rfl

@[simp] theorem isSchema_withOperationTypes (types : List OperationType) (d : Definition) :
    (d.withOperationTypes types).isSchema = d.isSchema := by
  simp [isSchema]

end Definition

/-- Whether a definition has the name of an object type that is defined more than once. -/
def sharesName (ds : List Definition) (d : Definition) : Bool :=
  d.name?.any fun name => 1 < (objectsNamed name ds).length

/-- The definition that stands for all definitions of an object type. -/
def mergedObject (name : Name) (ds : List Definition) : Option Definition :=
  (ObjectGroup.ofList? (objectsNamed name ds)).map ObjectGroup.merged

theorem hasNameIn_duplicatedNames (ds : List Definition) (d : Definition) :
    hasNameIn (duplicatedNames ds) d = sharesName ds d := by
  cases h : d.name? <;> simp [hasNameIn, sharesName, h, mem_duplicatedNames_iff]

/-- The definitions that are passed on as they are. -/
def passedOn (ds : List Definition) : List Definition :=
  ds.filter fun d => !d.isSchema && !sharesName ds d

/-- The definitions that are made of several definitions of one object type. -/
def mergedObjects (ds : List Definition) : List Definition :=
  (duplicates ds).map fun (_, g) => g.merged

theorem mergeDefinitions_eq (ds : List Definition) :
    mergeDefinitions ds = passedOn ds ++ (mergeSchema ds).toList ++ mergedObjects ds := by
  have h : ∀ d, hasNameIn (Entries.keys (duplicates ds)) d = sharesName ds d :=
    hasNameIn_duplicatedNames ds
  simp only [mergeDefinitions, passedOn, mergedObjects, h]

theorem objectName?_of_mem_objectsNamed {name : Name} {ds : List Definition} {d : Definition}
    (h : d ∈ objectsNamed name ds) : d.objectName? = some name := by
  simpa [Definition.isObjectNamed] using (List.mem_filter.mp h).2

theorem objectName?_of_mem_duplicates {name : Name} {g : ObjectGroup} {ds : List Definition}
    (h : (name, g) ∈ duplicates ds) : g.merged.objectName? = some name := by
  have hf : g.first ∈ objectsNamed name ds := by
    rw [← definitions_of_mem_duplicates h]
    exact List.mem_cons_self
  simpa [ObjectGroup.merged, mergeFields] using objectName?_of_mem_objectsNamed hf

theorem mergeKind_of_mem_mergedObjects {d : Definition} {ds : List Definition}
    (h : d ∈ mergedObjects ds) : d.mergeKind = .objectType := by
  obtain ⟨⟨name, g⟩, hm, rfl⟩ := List.mem_map.mp h
  exact Definition.mergeKind_of_objectName? (objectName?_of_mem_duplicates hm)

theorem isSchema_of_mem_mergeSchema {d : Definition} {ds : List Definition}
    (h : d ∈ (mergeSchema ds).toList) : d.isSchema = true := by
  cases hs : ds.filter Definition.isSchema with
  | nil => simp [mergeSchema, hs] at h
  | cons first others =>
    have hf : first ∈ ds.filter Definition.isSchema := by simp [hs]
    have hd : d = mergeOperationTypes first others := by simpa [mergeSchema, hs] using h
    rw [hd, mergeOperationTypes, Definition.isSchema_withOperationTypes]
    exact (List.mem_filter.mp hf).2

theorem sharesName_of_objectName? {ds : List Definition} {d : Definition} {name : Name}
    (h : d.objectName? = some name) :
    sharesName ds d = decide (1 < (objectsNamed name ds).length) := by
  simp [sharesName, Definition.name?_of_objectName? h]

theorem objectsNamed_passedOn (name : Name) (ds : List Definition) :
    objectsNamed name (passedOn ds) =
      if 1 < (objectsNamed name ds).length then [] else objectsNamed name ds := by
  have hkeep : ∀ d, d.isObjectNamed name = true →
      (!d.isSchema && !sharesName ds d) = !decide (1 < (objectsNamed name ds).length) := by
    intro d hd
    have hn : d.objectName? = some name := by simpa [Definition.isObjectNamed] using hd
    have hk := Definition.mergeKind_of_objectName? hn
    simp [Definition.isSchema, hk, sharesName_of_objectName? hn]
  rw [objectsNamed, passedOn, List.filter_filter]
  by_cases h : 1 < (objectsNamed name ds).length
  · rw [if_pos h]
    refine List.filter_eq_nil_iff.mpr fun d _ hd => ?_
    have hd := Bool.and_eq_true_iff.mp hd
    simp [hkeep d hd.1, h] at hd
  · rw [if_neg h]
    refine List.filter_congr fun d _ => ?_
    cases hn : d.isObjectNamed name with
    | false => rfl
    | true => simp [hkeep d hn, h]

theorem objectsNamed_mergeSchema (name : Name) (ds : List Definition) :
    objectsNamed name (mergeSchema ds).toList = [] := by
  refine List.filter_eq_nil_iff.mpr fun d hd hn => ?_
  have hs := isSchema_of_mem_mergeSchema hd
  have hk := Definition.mergeKind_of_objectName? (by simpa [Definition.isObjectNamed] using hn)
  simp [Definition.isSchema, hk] at hs

theorem objectsNamed_mergedObjects (name : Name) (ds : List Definition) :
    objectsNamed name (mergedObjects ds) =
      if 1 < (objectsNamed name ds).length then (mergedObject name ds).toList else [] := by
  have hnd := nodup_keys_objectGroups ds
  have hnd' : (Entries.keys (duplicates ds)).Nodup := hnd.sublist (duplicatedNames_sublist ds)
  -- Merging keeps the name of a group, and groups differ in their names.
  have hkey : objectsNamed name (mergedObjects ds) =
      ((duplicates ds).filter fun e => e.1 = name).map fun e => e.2.merged := by
    simp only [objectsNamed, mergedObjects, List.filter_map]
    refine congrArg _ (List.filter_congr fun e he => ?_)
    simp [Definition.isObjectNamed, objectName?_of_mem_duplicates he]
  rw [hkey, Entries.filter_key hnd', duplicates, Entries.get?_filter hnd, get?_objectGroups,
    mergedObject]
  cases hg : ObjectGroup.ofList? (objectsNamed name ds) with
  | none => simp
  | some g =>
    have hd := ObjectGroup.ofList?_eq_some_iff.mp hg
    by_cases hr : g.isRepeated = true
    · have hl := ObjectGroup.isRepeated_iff.mp hr
      simp [Option.filter, hr, hd, hl]
    · have hl := mt ObjectGroup.isRepeated_iff.mpr hr
      simp [Option.filter, hr, hd, hl]

theorem mergedObject_of_body {name : Name} {ds : List Definition} {t : TypeDefinition}
    {interfaces : List Name} {fields : List FieldDefinition} {others : List Definition}
    (h : objectsNamed name ds = .type t :: others) (hb : t.body = .object interfaces fields) :
    mergedObject name ds = some (.type { t with
      body := .object interfaces ((objectsNamed name ds).flatMap Definition.fields) }) := by
  obtain ⟨description, own, directives, body, location⟩ := t
  obtain rfl : body = .object interfaces fields := hb
  simp [mergedObject, h, ObjectGroup.ofList?, ObjectGroup.merged, mergeFields,
    Definition.withFields, Definition.fields, Definition.fields?, TypeBody.fields?,
    TypeBody.withFields]

theorem toList_mergedObject {name : Name} {ds : List Definition}
    (h : ¬ 1 < (objectsNamed name ds).length) :
    (mergedObject name ds).toList = objectsNamed name ds := by
  cases ho : objectsNamed name ds with
  | nil => simp [mergedObject, ho, ObjectGroup.ofList?]
  | cons first others =>
    cases others with
    | cons _ _ => simp [ho] at h
    | nil =>
      have hf : first ∈ objectsNamed name ds := by simp [ho]
      obtain ⟨t, interfaces, fields, rfl, -, hb⟩ :=
        Definition.objectName?_eq_some_iff.mp (objectName?_of_mem_objectsNamed hf)
      have hfields : Definition.fields (.type t) = fields := by
        simp [Definition.fields, Definition.fields?, TypeBody.fields?, hb]
      rw [mergedObject_of_body ho hb, ho, List.flatMap_singleton, hfields, ← hb]
      rfl

/-- One definition of each object type is left. -/
theorem objectsNamed_mergeDefinitions (name : Name) (ds : List Definition) :
    objectsNamed name (mergeDefinitions ds) = (mergedObject name ds).toList := by
  rw [mergeDefinitions_eq, objectsNamed_append, objectsNamed_append, objectsNamed_passedOn,
    objectsNamed_mergeSchema, objectsNamed_mergedObjects]
  by_cases h : 1 < (objectsNamed name ds).length
  · simp [h]
  · simp [h, toList_mergedObject h]

theorem filter_isSchema_mergeDefinitions (ds : List Definition) :
    (mergeDefinitions ds).filter Definition.isSchema = (mergeSchema ds).toList := by
  have hp : (passedOn ds).filter Definition.isSchema = [] := by
    refine List.filter_eq_nil_iff.mpr fun d hd hs => ?_
    simp [passedOn, hs] at hd
  have hm : (mergedObjects ds).filter Definition.isSchema = [] := by
    refine List.filter_eq_nil_iff.mpr fun d hd hs => ?_
    simp [Definition.isSchema, mergeKind_of_mem_mergedObjects hd] at hs
  rw [mergeDefinitions_eq, List.filter_append, List.filter_append, hp, hm, List.append_nil,
    List.nil_append]
  exact List.filter_eq_self.mpr fun d hd => isSchema_of_mem_mergeSchema hd

theorem filter_isOther_mergeDefinitions (ds : List Definition) :
    (mergeDefinitions ds).filter Definition.isOther =
      ds.filter fun d => d.isOther && !sharesName ds d := by
  have hs : (mergeSchema ds).toList.filter Definition.isOther = [] := by
    refine List.filter_eq_nil_iff.mpr fun d hd ho => ?_
    have hk : d.mergeKind = .schema := by
      simpa [Definition.isSchema] using isSchema_of_mem_mergeSchema hd
    simp [Definition.isOther, hk] at ho
  have hm : (mergedObjects ds).filter Definition.isOther = [] := by
    refine List.filter_eq_nil_iff.mpr fun d hd ho => ?_
    simp [Definition.isOther, mergeKind_of_mem_mergedObjects hd] at ho
  rw [mergeDefinitions_eq, List.filter_append, List.filter_append, hs, hm, List.append_nil,
    List.append_nil, passedOn, List.filter_filter]
  refine List.filter_congr fun d _ => ?_
  cases hk : d.mergeKind <;> simp [Definition.isOther, Definition.isSchema, hk]

end SchemaLoom
