import SchemaLoom.Proofs.Merge.Views

/-! Merging step by step. What merging makes of a list of definitions depends only on what it makes
of each object type, of the schema definitions, and of the rest. These are kept when parts of the
list are merged before, so it does not matter in how many steps documents are merged. -/

namespace SchemaLoom

namespace Definition

theorem withFields_withFields (fields fields' : List FieldDefinition) (d : Definition) :
    (d.withFields fields).withFields fields' = d.withFields fields' := by
  cases d with
  | type t => cases hb : t.body <;> simp [withFields, TypeBody.withFields, hb]
  | typeExtension t => cases hb : t.body <;> simp [withFields, TypeBody.withFields, hb]
  | _ => rfl

theorem fields_withFields {d : Definition} {name : Name} (h : d.objectName? = some name)
    (fields : List FieldDefinition) : (d.withFields fields).fields = fields := by
  obtain ⟨t, interfaces, own, rfl, -, hb⟩ := objectName?_eq_some_iff.mp h
  simp [Definition.withFields, TypeBody.withFields, Definition.fields, Definition.fields?,
    TypeBody.fields?, hb]

theorem exists_schema_of_isSchema {d : Definition} (h : d.isSchema = true) :
    ∃ s, d = .schema s := by
  cases d with
  | schema s => exact ⟨s, rfl⟩
  | type t => cases hb : t.body <;>
      simp [isSchema, mergeKind, TypeDefinition.kind, TypeBody.kind, hb] at h
  | _ => simp [isSchema, mergeKind] at h

end Definition

theorem mergeFields_append {first next : Definition} {name name' : Name}
    (hf : first.objectName? = some name) (hn : next.objectName? = some name')
    (others more : List Definition) :
    mergeFields first (others ++ next :: more) =
      mergeFields (mergeFields first others) [mergeFields next more] := by
  simp only [mergeFields, Definition.fields_withFields hf, Definition.fields_withFields hn,
    Definition.withFields_withFields, List.flatMap_append, List.flatMap_cons, List.flatMap_nil,
    List.append_nil, List.append_assoc]

theorem mergedObject_append (name : Name) (ds es : List Definition) :
    mergedObject name (ds ++ es) =
      (mergedObject name ds).merge (fun d e => mergeFields d [e]) (mergedObject name es) := by
  simp only [mergedObject, objectsNamed_append]
  cases hd : objectsNamed name ds with
  | nil => simp [ObjectGroup.ofList?]
  | cons first others =>
    cases he : objectsNamed name es with
    | nil => simp [ObjectGroup.ofList?]
    | cons next more =>
      have hfirst : first ∈ objectsNamed name ds := by simp [hd]
      have hnext : next ∈ objectsNamed name es := by simp [he]
      have hf := objectName?_of_mem_objectsNamed hfirst
      have hn := objectName?_of_mem_objectsNamed hnext
      exact congrArg some (mergeFields_append hf hn others more)

def declares (types : List OperationType) (operation : Operation) : Bool :=
  types.any (·.operation = operation)

theorem addOperationTypes_append (known types more : List OperationType) :
    addOperationTypes known (types ++ more) =
      addOperationTypes (addOperationTypes known types) more := by
  induction types generalizing known with
  | nil => rfl
  | cons t rest ih =>
    simp only [List.cons_append, addOperationTypes]
    split <;> exact ih _

theorem declares_addOperationTypes_of_known {known : List OperationType} {operation : Operation}
    (h : declares known operation = true) (types : List OperationType) :
    declares (addOperationTypes known types) operation = true := by
  induction types generalizing known with
  | nil => exact h
  | cons t rest ih =>
    simp only [addOperationTypes]
    split
    · exact ih h
    · refine ih ?_
      simp only [declares, List.any_append, Bool.or_eq_true]
      exact .inl h

theorem declares_addOperationTypes {types : List OperationType} {operation : Operation}
    (h : declares types operation = true) (known : List OperationType) :
    declares (addOperationTypes known types) operation = true := by
  induction types generalizing known with
  | nil => simp [declares] at h
  | cons t rest ih =>
    by_cases ht : t.operation = operation
    · simp only [addOperationTypes]
      split
      · rename_i hk
        exact declares_addOperationTypes_of_known (by simpa [declares, ht] using hk) rest
      · exact declares_addOperationTypes_of_known (by simp [declares, ht]) rest
    · have hr : declares rest operation = true := by simpa [declares, ht] using h
      simp only [addOperationTypes]
      split <;> exact ih hr _

/-- What is left out of operation types that were brought together before would be left out of them
later, too. -/
theorem addOperationTypes_addOperationTypes (known types more : List OperationType) :
    addOperationTypes known (addOperationTypes types more) =
      addOperationTypes known (types ++ more) := by
  induction more generalizing types with
  | nil => simp [addOperationTypes]
  | cons t rest ih =>
    by_cases ht : declares types t.operation = true
    · have hk := declares_addOperationTypes ht known
      have hl : addOperationTypes types (t :: rest) = addOperationTypes types rest := if_pos ht
      have hr : addOperationTypes (addOperationTypes known types) (t :: rest) =
          addOperationTypes (addOperationTypes known types) rest := if_pos hk
      rw [hl, ih, addOperationTypes_append, addOperationTypes_append, hr]
    · have hl : addOperationTypes types (t :: rest) = addOperationTypes (types ++ [t]) rest :=
        if_neg ht
      rw [hl, ih, List.append_assoc, List.singleton_append]

theorem mergeOperationTypes_append {first next : Definition} (hf : first.isSchema = true)
    (hn : next.isSchema = true) (others more : List Definition) :
    mergeOperationTypes first (others ++ next :: more) =
      mergeOperationTypes (mergeOperationTypes first others) [mergeOperationTypes next more] := by
  obtain ⟨s, rfl⟩ := Definition.exists_schema_of_isSchema hf
  obtain ⟨t, rfl⟩ := Definition.exists_schema_of_isSchema hn
  simp only [mergeOperationTypes, Definition.operationTypes, Definition.operationTypes?,
    Definition.withOperationTypes, Option.getD_some, List.flatMap_append, List.flatMap_cons,
    List.flatMap_nil, List.append_nil, addOperationTypes_append,
    addOperationTypes_addOperationTypes]

theorem mergeSchema_append (ds es : List Definition) :
    mergeSchema (ds ++ es) =
      (mergeSchema ds).merge (fun d e => mergeOperationTypes d [e]) (mergeSchema es) := by
  simp only [mergeSchema, List.filter_append]
  cases hd : ds.filter Definition.isSchema with
  | nil => cases es.filter Definition.isSchema <;> rfl
  | cons first others =>
    cases he : es.filter Definition.isSchema with
    | nil => simp
    | cons next more =>
      have hf := (List.mem_filter.mp (show first ∈ ds.filter Definition.isSchema by simp [hd])).2
      have hn := (List.mem_filter.mp (show next ∈ es.filter Definition.isSchema by simp [he])).2
      exact congrArg some (mergeOperationTypes_append hf hn others more)

/-- Two lists of definitions of which merging makes the same. -/
structure SameMerged (ds es : List Definition) : Prop where
  object : ∀ name, mergedObject name ds = mergedObject name es
  schema : mergeSchema ds = mergeSchema es
  other : ds.filter Definition.isOther = es.filter Definition.isOther

namespace SameMerged

variable {ds ds' es es' fs : List Definition}

theorem refl (ds : List Definition) : SameMerged ds ds := ⟨fun _ => rfl, rfl, rfl⟩

theorem symm (h : SameMerged ds es) : SameMerged es ds :=
  ⟨fun name => (h.object name).symm, h.schema.symm, h.other.symm⟩

theorem trans (h : SameMerged ds es) (h' : SameMerged es fs) : SameMerged ds fs :=
  ⟨fun name => (h.object name).trans (h'.object name), h.schema.trans h'.schema,
    h.other.trans h'.other⟩

theorem append (h : SameMerged ds es) (h' : SameMerged ds' es') :
    SameMerged (ds ++ ds') (es ++ es') := by
  refine ⟨fun name => ?_, ?_, ?_⟩
  · rw [mergedObject_append, mergedObject_append, h.object, h'.object]
  · rw [mergeSchema_append, mergeSchema_append, h.schema, h'.schema]
  · rw [List.filter_append, List.filter_append, h.other, h'.other]

end SameMerged

/-- No definition other than those of object types has the name of an object type. -/
def NamesApart (ds : List Definition) : Prop :=
  ∀ d ∈ ds, d.mergeKind ≠ .objectType → ∀ name ∈ d.name?, objectsNamed name ds = []

instance (ds : List Definition) : Decidable (NamesApart ds) :=
  inferInstanceAs (Decidable (∀ d ∈ ds, d.mergeKind ≠ .objectType →
    ∀ name ∈ d.name?, objectsNamed name ds = []))

theorem NamesApart.of_append_left {ds es : List Definition} (h : NamesApart (ds ++ es)) :
    NamesApart ds := by
  intro d hd hk name hn
  have hz := h d (List.mem_append_left es hd) hk name hn
  rw [objectsNamed_append] at hz
  exact (List.append_eq_nil_iff.mp hz).1

theorem NamesApart.of_append_right {ds es : List Definition} (h : NamesApart (ds ++ es)) :
    NamesApart es := by
  intro d hd hk name hn
  have hz := h d (List.mem_append_right ds hd) hk name hn
  rw [objectsNamed_append] at hz
  exact (List.append_eq_nil_iff.mp hz).2

theorem mergedObject_eq_none_iff {name : Name} {ds : List Definition} :
    mergedObject name ds = none ↔ objectsNamed name ds = [] := by
  cases h : objectsNamed name ds <;> simp [mergedObject, h, ObjectGroup.ofList?]

theorem NamesApart.of_sameMerged {ds es : List Definition} (h : NamesApart ds)
    (hs : SameMerged ds es) : NamesApart es := by
  intro d hd hk name hn
  have hschema : d.isSchema = false := by
    by_contra hc
    have hnone := Definition.name?_of_isSchema (by simpa using hc)
    simp [hnone] at hn
  have hother : d.isOther = true := by
    cases hm : d.mergeKind with
    | objectType => exact absurd hm hk
    | schema => simp [Definition.isSchema, hm] at hschema
    | other => simp [Definition.isOther, hm]
  have hmem : d ∈ ds.filter Definition.isOther :=
    hs.other ▸ List.mem_filter.mpr ⟨hd, hother⟩
  have hz := h d (List.mem_filter.mp hmem).1 hk name hn
  rw [← mergedObject_eq_none_iff, ← hs.object, mergedObject_eq_none_iff]
  exact hz

theorem NamesApart.sharesName_eq_false {ds : List Definition} (h : NamesApart ds)
    {d : Definition} (hd : d ∈ ds) (ho : d.isOther = true) : sharesName ds d = false := by
  have hk : d.mergeKind ≠ .objectType := fun hm => by simp [Definition.isOther, hm] at ho
  cases hn : d.name? with
  | none => simp [sharesName, hn]
  | some name => simp [sharesName, hn, h d hd hk name hn]

theorem mergedObject_mergeDefinitions (name : Name) (ds : List Definition) :
    mergedObject name (mergeDefinitions ds) = mergedObject name ds := by
  have hl : ¬ 1 < (objectsNamed name (mergeDefinitions ds)).length := by
    rw [objectsNamed_mergeDefinitions]
    exact Nat.not_lt.mpr Option.length_toList_le
  calc
    mergedObject name (mergeDefinitions ds)
      = (mergedObject name (mergeDefinitions ds)).toList.head? := Option.head?_toList.symm
    _ = (mergedObject name ds).toList.head? := by
      rw [toList_mergedObject hl, objectsNamed_mergeDefinitions]
    _ = mergedObject name ds := Option.head?_toList

theorem mergeOperationTypes_nil {d : Definition} (h : d.isSchema = true) :
    mergeOperationTypes d [] = d := by
  obtain ⟨s, rfl⟩ := Definition.exists_schema_of_isSchema h
  rfl

theorem mergeSchema_mergeDefinitions (ds : List Definition) :
    mergeSchema (mergeDefinitions ds) = mergeSchema ds := by
  rw [mergeSchema, filter_isSchema_mergeDefinitions]
  cases hs : mergeSchema ds with
  | none => rfl
  | some d =>
    have hd : d ∈ (mergeSchema ds).toList := by simp [hs]
    exact congrArg some (mergeOperationTypes_nil (isSchema_of_mem_mergeSchema hd))

theorem mergeDefinitions_sameMerged {ds : List Definition} (h : NamesApart ds) :
    SameMerged (mergeDefinitions ds) ds := by
  refine ⟨fun name => mergedObject_mergeDefinitions name ds, mergeSchema_mergeDefinitions ds, ?_⟩
  rw [filter_isOther_mergeDefinitions]
  refine List.filter_congr fun d hd => ?_
  cases ho : d.isOther with
  | false => rfl
  | true => simp [h.sharesName_eq_false hd ho]

/-- The same definitions up to their places: of each object type and of the schema the same, and the
rest in the same order. -/
structure SameContent (ds es : List Definition) : Prop where
  object : ∀ name, objectsNamed name ds = objectsNamed name es
  schema : ds.filter Definition.isSchema = es.filter Definition.isSchema
  other : ds.filter Definition.isOther = es.filter Definition.isOther

open Classical in
theorem count_eq_of_filter_perm {keep : Definition → Bool} {ds es : List Definition}
    (h : (ds.filter keep).Perm (es.filter keep)) {d : Definition} (hd : keep d = true) :
    ds.count d = es.count d := by
  calc
    ds.count d = (ds.filter keep).count d := (List.count_filter hd).symm
    _ = (es.filter keep).count d := h.count_eq d
    _ = es.count d := List.count_filter hd

open Classical in
/-- Nothing escapes the three views. -/
theorem perm_of_views {ds es : List Definition}
    (object : ∀ name, objectsNamed name ds = objectsNamed name es)
    (schema : ds.filter Definition.isSchema = es.filter Definition.isSchema)
    (other : (ds.filter Definition.isOther).Perm (es.filter Definition.isOther)) : ds.Perm es := by
  refine List.perm_iff_count.mpr fun d => ?_
  cases hk : d.mergeKind with
  | objectType =>
    obtain ⟨name, hn⟩ : ∃ name, d.objectName? = some name := by
      cases d with
      | type t => exact ⟨t.name, by simp [Definition.objectName?, hk, Definition.name?]⟩
      | _ => simp [Definition.mergeKind] at hk
    exact count_eq_of_filter_perm (.of_eq (object name)) (by simp [Definition.isObjectNamed, hn])
  | schema => exact count_eq_of_filter_perm (.of_eq schema) (by simp [Definition.isSchema, hk])
  | other => exact count_eq_of_filter_perm other (by simp [Definition.isOther, hk])

theorem SameContent.perm {ds es : List Definition} (h : SameContent ds es) : ds.Perm es :=
  perm_of_views h.object h.schema (.of_eq h.other)

theorem SameMerged.sameContent {ds es : List Definition} (h : SameMerged ds es)
    (hd : NamesApart ds) : SameContent (mergeDefinitions ds) (mergeDefinitions es) := by
  refine ⟨fun name => ?_, ?_, ?_⟩
  · rw [objectsNamed_mergeDefinitions, objectsNamed_mergeDefinitions, h.object]
  · rw [filter_isSchema_mergeDefinitions, filter_isSchema_mergeDefinitions, h.schema]
  · have hs := mergeDefinitions_sameMerged hd
    have he := mergeDefinitions_sameMerged (hd.of_sameMerged h)
    rw [hs.other, he.other, h.other]

/-- Merge documents one by one into the result so far. -/
def mergeStepwise (documents : List Document) : Document :=
  documents.foldl (fun merged d => mergeDocuments [merged, d]) ⟨[]⟩

theorem mergeStepwise_concat (documents : List Document) (d : Document) :
    (mergeStepwise (documents ++ [d])).definitions =
      mergeDefinitions ((mergeStepwise documents).definitions ++ d.definitions) := by
  simp [mergeStepwise, mergeDocuments, allDefinitions]

theorem allDefinitions_append (xs ys : List Document) :
    allDefinitions (xs ++ ys) = allDefinitions xs ++ allDefinitions ys :=
  List.flatMap_append ..

theorem mergeStepwise_sameMerged (documents : List Document)
    (h : NamesApart (allDefinitions documents)) :
    SameMerged (mergeStepwise documents).definitions (allDefinitions documents) := by
  induction documents using List.reverseRecOn with
  | nil => exact .refl []
  | append_singleton documents d ih =>
    have hd : allDefinitions [d] = d.definitions := by simp [allDefinitions]
    rw [allDefinitions_append, hd] at h
    rw [mergeStepwise_concat, allDefinitions_append, hd]
    have hs := (ih h.of_append_left).append (.refl d.definitions)
    exact (mergeDefinitions_sameMerged (h.of_sameMerged hs.symm)).trans hs

theorem mergeStepwise_sameContent (documents : List Document)
    (h : NamesApart (allDefinitions documents)) :
    SameContent (mergeStepwise documents).definitions (mergeDocuments documents).definitions := by
  cases documents using List.reverseRecOn with
  | nil => exact ⟨fun _ => rfl, rfl, rfl⟩
  | append_singleton documents d =>
    have hd : allDefinitions [d] = d.definitions := by simp [allDefinitions]
    have ha : allDefinitions (documents ++ [d]) = allDefinitions documents ++ d.definitions := by
      rw [allDefinitions_append, hd]
    rw [ha] at h
    -- The last merge is one of both sides, so they have to agree only on what it merges.
    have hs := (mergeStepwise_sameMerged documents h.of_append_left).append (.refl d.definitions)
    rw [mergeStepwise_concat, mergeDocuments, ha]
    exact hs.sameContent (h.of_sameMerged hs.symm)

theorem length_objectsNamed_mergeDefinitions (name : Name) (ds : List Definition) :
    (objectsNamed name (mergeDefinitions ds)).length =
      if objectsNamed name ds = [] then 0 else 1 := by
  rw [objectsNamed_mergeDefinitions]
  cases hm : mergedObject name ds with
  | none =>
    have hn : objectsNamed name ds = [] := mergedObject_eq_none_iff.mp hm
    simp [hn]
  | some d =>
    have hn : objectsNamed name ds ≠ [] := by
      rw [ne_eq, ← mergedObject_eq_none_iff]
      simp [hm]
    simp [hn]

/-- Merging what was merged before, in two parts or one document after the other, makes the same
definitions as merging all documents at once, which holds one definition of every object type that
is defined in any of them. -/
theorem merge_merged_sameContent (xs ys : List Document)
    (h : NamesApart (allDefinitions (xs ++ ys))) :
    let batch := (mergeDocuments (xs ++ ys)).definitions
    let parts := (mergeDocuments [mergeDocuments xs, mergeDocuments ys]).definitions
    let stepwise := (mergeStepwise (xs ++ ys)).definitions
    (parts.Perm batch ∧ SameContent parts batch) ∧
      (stepwise.Perm batch ∧ SameContent stepwise batch) ∧
      ∀ name, (objectsNamed name batch).length =
        if objectsNamed name (allDefinitions (xs ++ ys)) = [] then 0 else 1 := by
  intro batch parts stepwise
  have hstep : SameContent stepwise batch := mergeStepwise_sameContent (xs ++ ys) h
  have hparts : SameContent parts batch := by
    rw [allDefinitions_append] at h
    have hx := mergeDefinitions_sameMerged h.of_append_left
    have hy := mergeDefinitions_sameMerged h.of_append_right
    have hs := (hx.append hy).sameContent (h.of_sameMerged (hx.append hy).symm)
    simpa [parts, batch, mergeDocuments, allDefinitions] using hs
  refine ⟨⟨hparts.perm, hparts⟩, ⟨hstep.perm, hstep⟩, fun name => ?_⟩
  exact length_objectsNamed_mergeDefinitions name (allDefinitions (xs ++ ys))

/-- One type is split within the first part and across both, and so is the schema definition. -/
theorem merge_merged_sameContent_split :
    let object (field : Name) : Definition :=
      .type ⟨none, "T", [], .object [] [⟨none, field, [], .named "Int", none, []⟩], none⟩
    let schema (operation : Operation) (type : Name) : Definition :=
      .schema ⟨none, [], [⟨operation, type⟩], none⟩
    let extension : Definition := .typeExtension ⟨none, "U", [], .union ["T"], none⟩
    let xs : List Document :=
      [⟨[object "a", schema .query "T", object "b"]⟩, ⟨[extension, schema .mutation "M"]⟩]
    let ys : List Document := [⟨[schema .query "Q", object "a"]⟩]
    NamesApart (allDefinitions (xs ++ ys)) ∧
      SameContent (mergeDocuments [mergeDocuments xs, mergeDocuments ys]).definitions
        (mergeDocuments (xs ++ ys)).definitions := by
  intro object schema extension xs ys
  have h : NamesApart (allDefinitions (xs ++ ys)) := by decide
  exact ⟨h, (merge_merged_sameContent xs ys h).1.2⟩

end SchemaLoom
