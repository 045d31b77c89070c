import SchemaLoom.Proofs.Merge.Views

/-! What merging keeps. Fields, schema definitions and all other definitions are accounted for; the
only ones lost are those that bear the name of an object type which is defined more than once. -/

namespace SchemaLoom

theorem length_mergeSchema (ds : List Definition) :
    (mergeSchema ds).toList.length = if ds.any Definition.isSchema then 1 else 0 := by
  cases hs : ds.filter Definition.isSchema with
  | nil =>
    have hn : ds.any Definition.isSchema = false :=
      List.any_eq_false.mpr (List.filter_eq_nil_iff.mp hs)
    simp [mergeSchema, hs, hn]
  | cons first others =>
    have hf : first ∈ ds.filter Definition.isSchema := by simp [hs]
    have hy : ds.any Definition.isSchema = true :=
      List.any_eq_true.mpr ⟨first, List.mem_filter.mp hf⟩
    simp [mergeSchema, hs, hy]

/-- What merging keeps of the definitions given. The fields of `object` are all that the definitions
of its name have, all else is of the first of them; `layout` has the merged object types in the
order in which their names are first found. -/
structure Conserves (given merged : List Definition) : Prop where
  object : ∀ name, objectsNamed name given ≠ [] → ∃ first interfaces fields,
    (objectsNamed name given).head? = some (.type first) ∧
    first.body = .object interfaces fields ∧
    objectsNamed name merged = [.type { first with
      body := .object interfaces ((objectsNamed name given).flatMap Definition.fields) }]
  noObject : ∀ name, objectsNamed name given = [] → objectsNamed name merged = []
  schema : merged.countP Definition.isSchema = if given.any Definition.isSchema then 1 else 0
  other : merged.filter Definition.isOther =
    given.filter fun d => d.isOther && !sharesName given d
  layout : ∃ (schemas objects : List Definition) (names : List Name),
    merged = given.filter (fun d => !d.isSchema && !sharesName given d) ++ schemas ++ objects ∧
    (∀ d ∈ schemas, d.isSchema = true) ∧
    objects.map Definition.objectName? = names.map some ∧
    (∀ name, name ∈ names ↔ 1 < (objectsNamed name given).length) ∧
    names.Pairwise fun a b => (objectNames given).idxOf a < (objectNames given).idxOf b

theorem mergeDocuments_conserves (documents : List Document) :
    Conserves (allDefinitions documents) (mergeDocuments documents).definitions := by
  change Conserves _ (mergeDefinitions (allDefinitions documents))
  generalize allDefinitions documents = ds
  constructor
  case object =>
    intro name hne
    cases ho : objectsNamed name ds with
    | nil => exact absurd ho hne
    | cons first others =>
      have hf : first ∈ objectsNamed name ds := by simp [ho]
      obtain ⟨t, interfaces, fields, rfl, -, hb⟩ :=
        Definition.objectName?_eq_some_iff.mp (objectName?_of_mem_objectsNamed hf)
      refine ⟨t, interfaces, fields, rfl, hb, ?_⟩
      rw [objectsNamed_mergeDefinitions, mergedObject_of_body ho hb, ho]
      rfl
  case noObject =>
    intro name hn
    simp [objectsNamed_mergeDefinitions, mergedObject, hn, ObjectGroup.ofList?]
  case schema =>
    rw [List.countP_eq_length_filter, filter_isSchema_mergeDefinitions, length_mergeSchema]
  case other => exact filter_isOther_mergeDefinitions ds
  case layout =>
    refine ⟨(mergeSchema ds).toList, mergedObjects ds, duplicatedNames ds, mergeDefinitions_eq ds,
      fun d hd => isSchema_of_mem_mergeSchema hd, ?_, fun name => mem_duplicatedNames_iff,
      (pairwise_keys_objectGroups ds).sublist (duplicatedNames_sublist ds)⟩
    simp only [mergedObjects, duplicatedNames, Entries.keys, List.map_map]
    exact List.map_congr_left fun e he => objectName?_of_mem_duplicates he

/-- Neither an object type definition nor a schema definition, and no definition of a type. -/
def Definition.isOutside : Definition → Bool
  | .type _ => false
  | .schema _ => false
  | _ => true

theorem Definition.isOther_of_isOutside {d : Definition} (h : d.isOutside = true) :
    d.isOther = true := by
  cases d with
  | type _ => simp [isOutside] at h
  | schema _ => simp [isOutside] at h
  | _ => rfl

open Classical in
theorem count_mergeDefinitions_of_isOther {d : Definition} (h : d.isOther = true)
    (ds : List Definition) :
    (mergeDefinitions ds).count d = if sharesName ds d then 0 else ds.count d := by
  rw [← List.count_filter h, filter_isOther_mergeDefinitions]
  by_cases hs : sharesName ds d = true
  · rw [if_pos hs]
    exact List.count_eq_zero.mpr fun hm => by simp [hs] at hm
  · rw [if_neg hs]
    exact List.count_filter (by simp [h, hs])

open Classical in
/-- A definition outside merging is kept as often as it is given, unless it has the name of an
object type that is defined more than once: then it is lost. -/
theorem count_outside_mergeDocuments (documents : List Document) :
    let given := allDefinitions documents
    let merged := (mergeDocuments documents).definitions
    (∀ d, d.isOutside = true →
      merged.count d = if sharesName given d then 0 else given.count d) ∧
    ((∀ d, d.isOutside = true → merged.count d = given.count d) ↔
      ∀ d ∈ given, d.isOutside = true → sharesName given d = false) := by
  intro given merged
  have hcount : ∀ d, d.isOutside = true →
      merged.count d = if sharesName given d then 0 else given.count d := fun d hd =>
    count_mergeDefinitions_of_isOther (Definition.isOther_of_isOutside hd) given
  refine ⟨hcount, ?_, ?_⟩
  · intro hall d hm hd
    by_contra hs
    have hs : sharesName given d = true := by simpa using hs
    have hz : given.count d = 0 := by
      rw [← hall d hd, hcount d hd, if_pos hs]
    exact List.count_eq_zero.mp hz hm
  · intro hno d hd
    rw [hcount d hd]
    by_cases hm : d ∈ given
    · simp [hno d hm hd]
    · simp [List.count_eq_zero.mpr hm]

open Classical in
/-- An extension beside one definition of its type is kept, also when another type is merged. -/
theorem count_outside_mergeDocuments_single :
    let object (name field : Name) : TypeDefinition :=
      ⟨none, name, [], .object [] [⟨none, field, [], .named "Int", none, []⟩], none⟩
    let extension : Definition := .typeExtension (object "T" "c")
    let documents : List Document :=
      [⟨[.type (object "T" "a"), .type (object "S" "a")]⟩, ⟨[extension, .type (object "S" "b")]⟩]
    extension.isOutside = true ∧ (mergeDocuments documents).definitions.count extension = 1 := by
  intro object extension documents
  have ho : extension.isOutside = true := rfl
  have hs : sharesName (allDefinitions documents) extension = false := by decide
  have hcount : (allDefinitions documents).count extension = 1 := by
    simp [documents, allDefinitions, extension]
  refine ⟨ho, ((count_outside_mergeDocuments documents).1 extension ho).trans ?_⟩
  rw [hs, hcount]
  rfl

open Classical in
/-- An extension beside two definitions of its type is lost. -/
theorem typeExtension_lost :
    let field (name : Name) : FieldDefinition := ⟨none, name, [], .named "Int", none, []⟩
    let body (name : Name) : TypeDefinition := ⟨none, "T", [], .object [] [field name], none⟩
    let extension : Definition := .typeExtension (body "c")
    let documents : List Document := [⟨[.type (body "a")]⟩, ⟨[.type (body "b"), extension]⟩]
    extension.isOutside = true ∧ (allDefinitions documents).count extension = 1 ∧
      (mergeDocuments documents).definitions.count extension = 0 := by
  intro field body extension documents
  have hs : sharesName (allDefinitions documents) extension = true := by decide
  refine ⟨rfl, ?_, ?_⟩
  · simp [documents, allDefinitions, extension]
  · exact (count_mergeDefinitions_of_isOther rfl _).trans (if_pos hs)

end SchemaLoom
