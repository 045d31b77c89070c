import Mathlib.Data.List.Nodup
import SchemaLoom.Proofs.Merge.Stepwise

/-! Documents that merging leaves as they are, and what comes of merging again and again. The first
merge puts merged object types behind the schema definition, the second puts them before it, and
after that nothing moves. -/

namespace SchemaLoom

variable {ds : List Definition}

/-- There is no schema definition, or exactly one, and it comes last. -/
def SchemaAtEnd (ds : List Definition) : Prop :=
  ds.countP Definition.isSchema = 0 ∨
    ds.countP Definition.isSchema = 1 ∧ ds.getLast?.any Definition.isSchema = true

theorem count_objectNames (name : Name) (ds : List Definition) :
    (objectNames ds).count name = (objectsNamed name ds).length := by
  rw [objectNames, List.count_filterMap, objectsNamed, ← List.countP_eq_length_filter]
  refine List.countP_congr fun d _ => ?_
  simp [Definition.isObjectNamed]

theorem nodup_objectNames_iff :
    (objectNames ds).Nodup ↔ ∀ name, ¬ 1 < (objectsNamed name ds).length := by
  rw [List.nodup_iff_count_le_one]
  exact forall_congr' fun name => by rw [count_objectNames, Nat.not_lt]

theorem sharesName_of_nodup (h : (objectNames ds).Nodup) (d : Definition) :
    sharesName ds d = false := by
  have hone := nodup_objectNames_iff.mp h
  cases hn : d.name? <;> simp [sharesName, hn, hone]

theorem mergedObjects_eq_nil_iff : mergedObjects ds = [] ↔ (objectNames ds).Nodup := by
  have hkeys : mergedObjects ds = [] ↔ duplicatedNames ds = [] := by
    simp [mergedObjects, duplicatedNames, Entries.keys]
  rw [hkeys, List.eq_nil_iff_forall_not_mem, nodup_objectNames_iff]
  exact forall_congr' fun name => not_congr mem_duplicatedNames_iff

theorem nodup_objectNames_mergeDefinitions (ds : List Definition) :
    (objectNames (mergeDefinitions ds)).Nodup := by
  refine nodup_objectNames_iff.mpr fun name => ?_
  rw [objectsNamed_mergeDefinitions]
  exact Nat.not_lt.mpr Option.length_toList_le

/-- Where no object type is defined twice, merging moves schema definitions only. -/
theorem mergeDefinitions_of_nodup (h : (objectNames ds).Nodup) :
    mergeDefinitions ds = ds.filter (fun d => !d.isSchema) ++ (mergeSchema ds).toList := by
  rw [mergeDefinitions_eq, mergedObjects_eq_nil_iff.mpr h, List.append_nil, passedOn]
  refine congrArg (· ++ _) (List.filter_congr fun d _ => ?_)
  rw [sharesName_of_nodup h, Bool.not_false, Bool.and_true]

theorem mergeSchema_toList_eq_nil_iff :
    (mergeSchema ds).toList = [] ↔ ds.any Definition.isSchema = false := by
  rw [List.any_eq_false, ← List.filter_eq_nil_iff]
  cases hs : ds.filter Definition.isSchema <;> simp [mergeSchema, hs]

theorem filter_isSchema_filter_not (ds : List Definition) :
    (ds.filter fun d => !d.isSchema).filter Definition.isSchema = [] := by
  rw [List.filter_filter]
  exact List.filter_eq_nil_iff.mpr fun d _ => by cases d.isSchema <;> simp

theorem schemaAtEnd_concat {init : List Definition} {s : Definition} (hs : s.isSchema = true)
    (hinit : init.filter Definition.isSchema = []) : SchemaAtEnd (init ++ [s]) := by
  refine .inr ⟨?_, by simp [hs]⟩
  have hnone : init.countP Definition.isSchema = 0 := by
    rw [List.countP_eq_length_filter, hinit, List.length_nil]
  simp [List.countP_append, hnone, hs]

/-- A schema definition at the end is the one that is left, and the place where it is left. -/
theorem SchemaAtEnd.filter_append (h : SchemaAtEnd ds) :
    ds.filter (fun d => !d.isSchema) ++ (mergeSchema ds).toList = ds := by
  rcases h with hzero | ⟨hone, hlast⟩
  · have hnone : ∀ d ∈ ds, d.isSchema = false := by
      simpa [List.countP_eq_zero] using hzero
    have hschema : (mergeSchema ds).toList = [] :=
      mergeSchema_toList_eq_nil_iff.mpr (by simpa using hnone)
    rw [hschema, List.append_nil]
    exact List.filter_eq_self.mpr fun d hd => by simp [hnone d hd]
  · obtain ⟨s, hget, hs⟩ := (Option.any_eq_true _ _).mp hlast
    obtain ⟨init, rfl⟩ := List.getLast?_eq_some_iff.mp hget
    have hinit : init.filter Definition.isSchema = [] := by
      rw [← List.length_eq_zero_iff, ← List.countP_eq_length_filter]
      simpa [List.countP_append, hs] using hone
    have hkept : init.filter (fun d => !d.isSchema) = init := by
      refine List.filter_eq_self.mpr fun d hd => ?_
      simpa using List.filter_eq_nil_iff.mp hinit d hd
    have hschema : mergeSchema (init ++ [s]) = some s := by
      simp [mergeSchema, List.filter_append, hinit, hs, mergeOperationTypes_nil hs]
    simp [List.filter_append, hkept, hs, hschema]

/-- What merging leaves as it is has no object type defined twice, since the result has none, and
its schema definition last, since there is nothing behind it then. -/
theorem mergeDefinitions_eq_self_iff :
    mergeDefinitions ds = ds ↔ (objectNames ds).Nodup ∧ SchemaAtEnd ds := by
  constructor
  · intro h
    have hnodup : (objectNames ds).Nodup := h ▸ nodup_objectNames_mergeDefinitions ds
    refine ⟨hnodup, ?_⟩
    rw [mergeDefinitions_of_nodup hnodup] at h
    cases hs : mergeSchema ds with
    | none =>
      have hno : ds.any Definition.isSchema = false :=
        mergeSchema_toList_eq_nil_iff.mp (by rw [hs, Option.toList_none])
      exact .inl (List.countP_eq_zero.mpr (List.any_eq_false.mp hno))
    | some s =>
      have hown : s.isSchema = true := isSchema_of_mem_mergeSchema (by rw [hs]; simp)
      rw [hs, Option.toList_some] at h
      rw [← h]
      exact schemaAtEnd_concat hown (filter_isSchema_filter_not ds)
  · rintro ⟨hnodup, hend⟩
    rw [mergeDefinitions_of_nodup hnodup, hend.filter_append]

theorem filter_not_isSchema_mergeDefinitions (ds : List Definition) :
    (mergeDefinitions ds).filter (fun d => !d.isSchema) = passedOn ds ++ mergedObjects ds := by
  have hpassed : (passedOn ds).filter (fun d => !d.isSchema) = passedOn ds :=
    List.filter_eq_self.mpr fun d hd => (Bool.and_eq_true_iff.mp (List.mem_filter.mp hd).2).1
  have hschema : (mergeSchema ds).toList.filter (fun d => !d.isSchema) = [] :=
    List.filter_eq_nil_iff.mpr fun d hd => by simp [isSchema_of_mem_mergeSchema hd]
  have hobjects : (mergedObjects ds).filter (fun d => !d.isSchema) = mergedObjects ds :=
    List.filter_eq_self.mpr fun d hd => by
      simp [Definition.isSchema, mergeKind_of_mem_mergedObjects hd]
  rw [mergeDefinitions_eq, List.filter_append, List.filter_append, hpassed, hschema, hobjects,
    List.append_nil]

/-- The second merge finds no object type to merge, and puts the schema definition last. -/
theorem mergeDefinitions_twice (ds : List Definition) :
    mergeDefinitions (mergeDefinitions ds) =
      passedOn ds ++ mergedObjects ds ++ (mergeSchema ds).toList := by
  rw [mergeDefinitions_of_nodup (nodup_objectNames_mergeDefinitions ds),
    filter_not_isSchema_mergeDefinitions, mergeSchema_mergeDefinitions]

theorem mergeDefinitions_twice_perm (ds : List Definition) :
    (mergeDefinitions (mergeDefinitions ds)).Perm (mergeDefinitions ds) := by
  rw [mergeDefinitions_twice, mergeDefinitions_eq, List.append_assoc, List.append_assoc]
  exact .append_left _ List.perm_append_comm

/-- A schema definition does not change places with merged object types unseen, since it is none of
them. -/
theorem mergeDefinitions_twice_eq_iff :
    mergeDefinitions (mergeDefinitions ds) = mergeDefinitions ds ↔
      ds.any Definition.isSchema = false ∨ (objectNames ds).Nodup := by
  rw [mergeDefinitions_twice, mergeDefinitions_eq, List.append_assoc, List.append_assoc,
    List.append_cancel_left_eq, ← mergeSchema_toList_eq_nil_iff, ← mergedObjects_eq_nil_iff]
  constructor
  · intro h
    cases hs : mergeSchema ds with
    | none => exact .inl rfl
    | some s =>
      cases ho : mergedObjects ds with
      | nil => exact .inr rfl
      | cons d rest =>
        have hsame : d = s := by
          rw [hs, ho] at h
          exact (List.cons.inj h).1
        have hschema : s.isSchema = true := isSchema_of_mem_mergeSchema (by rw [hs]; simp)
        have hobject : d.mergeKind = .objectType :=
          mergeKind_of_mem_mergedObjects (by rw [ho]; simp)
        simp [Definition.isSchema, ← hsame, hobject] at hschema
  · rintro (hs | ho)
    · rw [hs, List.append_nil, List.nil_append]
    · rw [ho, List.append_nil, List.nil_append]

theorem schemaAtEnd_mergeDefinitions_twice (ds : List Definition) :
    SchemaAtEnd (mergeDefinitions (mergeDefinitions ds)) := by
  have hnodup := nodup_objectNames_mergeDefinitions ds
  have hkept : (passedOn ds ++ mergedObjects ds).filter Definition.isSchema = [] := by
    rw [← filter_not_isSchema_mergeDefinitions, filter_isSchema_filter_not]
  rw [mergeDefinitions_twice]
  cases hs : mergeSchema ds with
  | none =>
    rw [Option.toList_none, List.append_nil]
    refine .inl ?_
    rw [List.countP_eq_length_filter, hkept, List.length_nil]
  | some s =>
    have hown : s.isSchema = true := isSchema_of_mem_mergeSchema (by rw [hs]; simp)
    exact schemaAtEnd_concat hown hkept

theorem mergeDefinitions_thrice (ds : List Definition) :
    mergeDefinitions (mergeDefinitions (mergeDefinitions ds)) =
      mergeDefinitions (mergeDefinitions ds) :=
  mergeDefinitions_eq_self_iff.mpr
    ⟨nodup_objectNames_mergeDefinitions _, schemaAtEnd_mergeDefinitions_twice ds⟩

theorem mergeDocuments_singleton (d : Document) :
    mergeDocuments [d] = ⟨mergeDefinitions d.definitions⟩ := by
  simp [mergeDocuments, allDefinitions]

/-- Merging leaves a document as it is if it defines no object type twice and has its schema
definition, if any, at its end. A second merge may move the schema definition, and a third does
nothing. -/
theorem mergeDocuments_settles :
    (∀ d : Document, (mergeDocuments [d]).definitions = d.definitions ↔
      (objectNames d.definitions).Nodup ∧ SchemaAtEnd d.definitions) ∧
    ∀ documents : List Document,
      let once := mergeDocuments documents
      let twice := mergeDocuments [once]
      twice.definitions.Perm once.definitions ∧
      (twice = once ↔ (allDefinitions documents).any Definition.isSchema = false ∨
        (objectNames (allDefinitions documents)).Nodup) ∧
      mergeDocuments [twice] = twice := by
  refine ⟨fun d => ?_, fun documents => ?_⟩
  · rw [mergeDocuments_singleton]
    exact mergeDefinitions_eq_self_iff
  · intro once twice
    have honce : once = ⟨mergeDefinitions (allDefinitions documents)⟩ := rfl
    have htwice : twice = ⟨mergeDefinitions (mergeDefinitions (allDefinitions documents))⟩ :=
      mergeDocuments_singleton once
    rw [htwice, mergeDocuments_singleton, mergeDefinitions_thrice, honce, Document.mk.injEq]
    exact ⟨mergeDefinitions_twice_perm _, mergeDefinitions_twice_eq_iff, rfl⟩

/-- The schema definition comes before the merged type, then behind it. -/
example :
    let object (field : Name) : Definition :=
      .type ⟨none, "T", [], .object [] [⟨none, field, [], .named "Int", none, []⟩], none⟩
    let schema : Definition := .schema ⟨none, [], [⟨.query, "T"⟩], none⟩
    let once := mergeDocuments [⟨[object "a", schema]⟩, ⟨[object "b"]⟩]
    once.definitions.map Definition.name? = [none, some "T"] ∧
      (mergeDocuments [once]).definitions.map Definition.name? = [some "T", none] := by
  decide

end SchemaLoom
