import Mathlib.Data.List.Nodup
import SchemaLoom.Proofs.Merge.Stepwise

/-! The operation types of schema definitions that are merged. The first definition keeps what it
has, and of the others only the earliest declaration of each operation that it lacks is added. -/

namespace SchemaLoom

/-- How often operation types are given for an operation. -/
def declarations (operation : Operation) (types : List OperationType) : Nat :=
  types.countP (·.operation = operation)

/-- What is added to known operation types from later ones: one for each operation that the known
ones lack and the later ones have, the earliest of those given, in the order of these. -/
structure AddsEarliest (known later added : List OperationType) : Prop where
  missing : ∀ operation, operation ∈ added.map OperationType.operation ↔
    declares known operation = false ∧ declares later operation = true
  once : (added.map OperationType.operation).Nodup
  earliest : ∀ t ∈ added, later.find? (·.operation = t.operation) = some t
  ordered : added.Pairwise fun s t =>
    (later.map OperationType.operation).idxOf s.operation <
      (later.map OperationType.operation).idxOf t.operation

theorem declares_eq_true_iff {types : List OperationType} {operation : Operation} :
    declares types operation = true ↔ operation ∈ types.map OperationType.operation := by
  simp [declares]

theorem declares_append (types more : List OperationType) (operation : Operation) :
    declares (types ++ more) operation = (declares types operation || declares more operation) :=
  List.any_append

theorem declares_singleton (t : OperationType) (operation : Operation) :
    declares [t] operation = decide (t.operation = operation) := by
  simp [declares]

namespace AddsEarliest

variable {known later added : List OperationType} {t : OperationType}

theorem start (known : List OperationType) : AddsEarliest known [] [] :=
  ⟨by simp [declares], .nil, by simp, .nil⟩

theorem mem_later (h : AddsEarliest known later added) {s : OperationType} (hs : s ∈ added) :
    s.operation ∈ later.map OperationType.operation := by
  have hmissing := (h.missing s.operation).mp (List.mem_map_of_mem hs)
  exact declares_eq_true_iff.mp hmissing.2

theorem find?_concat (h : AddsEarliest known later added) {s : OperationType} (hs : s ∈ added) :
    (later ++ [t]).find? (·.operation = s.operation) = some s := by
  rw [List.find?_append, h.earliest s hs, Option.some_or]

theorem pairwise_concat (h : AddsEarliest known later added) (t : OperationType) :
    added.Pairwise fun s s' =>
      ((later ++ [t]).map OperationType.operation).idxOf s.operation <
        ((later ++ [t]).map OperationType.operation).idxOf s'.operation := by
  refine h.ordered.imp_of_mem fun {s s'} hs hs' hlt => ?_
  rw [List.map_append, List.idxOf_append_of_mem (h.mem_later hs),
    List.idxOf_append_of_mem (h.mem_later hs')]
  exact hlt

/-- An operation type for an operation that is there already is passed over. -/
theorem pass (h : AddsEarliest known later added)
    (ht : declares (known ++ added) t.operation = true) : AddsEarliest known (later ++ [t]) added := by
  refine ⟨fun operation => ?_, h.once, fun s hs => h.find?_concat hs, h.pairwise_concat t⟩
  rw [h.missing, declares_append, declares_singleton, Bool.or_eq_true]
  refine and_congr_right fun hknown => ⟨.inl, fun hor => hor.elim id fun hown => ?_⟩
  obtain rfl : t.operation = operation := of_decide_eq_true hown
  rw [declares_append, hknown, Bool.false_or, declares_eq_true_iff] at ht
  exact ((h.missing _).mp ht).2

/-- An operation type for a new operation is added behind all others. -/
theorem push (h : AddsEarliest known later added)
    (ht : declares (known ++ added) t.operation = false) :
    AddsEarliest known (later ++ [t]) (added ++ [t]) := by
  rw [declares_append, Bool.or_eq_false_iff] at ht
  obtain ⟨hknown, hadded⟩ := ht
  have hnew : t.operation ∉ added.map OperationType.operation := by
    intro hmem
    simp [declares_eq_true_iff.mpr hmem] at hadded
  have hlater : t.operation ∉ later.map OperationType.operation := fun hmem =>
    hnew ((h.missing _).mpr ⟨hknown, declares_eq_true_iff.mpr hmem⟩)
  refine ⟨fun operation => ?_, ?_, fun s hs => ?_, ?_⟩
  · rw [List.map_append, List.mem_append, h.missing, declares_append, declares_singleton,
      Bool.or_eq_true, List.map_singleton, List.mem_singleton, decide_eq_true_iff]
    constructor
    · rintro (⟨hk, hl⟩ | rfl)
      · exact ⟨hk, .inl hl⟩
      · exact ⟨hknown, .inr rfl⟩
    · rintro ⟨hk, hl | hown⟩
      · exact .inl ⟨hk, hl⟩
      · exact .inr hown.symm
  · rw [List.map_append, List.map_singleton]
    refine List.nodup_append.mpr ⟨h.once, List.pairwise_singleton _ _, fun own ho other hother => ?_⟩
    rintro rfl
    exact hnew (List.mem_singleton.mp hother ▸ ho)
  · rcases List.mem_append.mp hs with hs | hs
    · exact h.find?_concat hs
    · obtain rfl : s = t := List.mem_singleton.mp hs
      have hnone : later.find? (·.operation = s.operation) = none := by
        refine List.find?_eq_none.mpr fun u hu => ?_
        intro heq
        exact hlater (of_decide_eq_true heq ▸ List.mem_map_of_mem hu)
      rw [List.find?_append, hnone, Option.none_or]
      simp
  · refine List.pairwise_append.mpr
      ⟨h.pairwise_concat t, List.pairwise_singleton _ _, fun s hs s' hs' => ?_⟩
    obtain rfl : s' = t := List.mem_singleton.mp hs'
    have hs := h.mem_later hs
    have hlt := List.idxOf_lt_length_of_mem hs
    rw [List.map_append, List.idxOf_append_of_mem hs, List.idxOf_append_of_notMem hlater]
    omega

/-- Nothing is added for an operation that is known, and at most one operation type for another. -/
theorem declarations_append (h : AddsEarliest known later added) (operation : Operation) :
    1 < declarations operation (known ++ added) ↔ 1 < declarations operation known := by
  have hcount : declarations operation added =
      (added.map OperationType.operation).count operation := by
    rw [declarations, List.count, List.countP_map]
    exact List.countP_congr fun s _ => by simp
  have hle : declarations operation added ≤ 1 := by
    rw [hcount]
    exact List.nodup_iff_count_le_one.mp h.once operation
  have hsum : declarations operation (known ++ added) =
      declarations operation known + declarations operation added := List.countP_append
  by_cases hk : declares known operation = true
  · have hzero : declarations operation added = 0 := by
      rw [hcount]
      refine List.count_eq_zero.mpr fun hmem => ?_
      have hmissing := ((h.missing operation).mp hmem).1
      simp [hk] at hmissing
    omega
  · have hzero : declarations operation known = 0 := by
      simpa [declarations, declares, List.countP_eq_zero] using hk
    omega

end AddsEarliest

theorem exists_addOperationTypes_eq (known later : List OperationType) :
    ∃ added, addOperationTypes known later = known ++ added ∧ AddsEarliest known later added := by
  induction later using List.reverseRecOn with
  | nil => exact ⟨[], (List.append_nil known).symm, .start known⟩
  | append_singleton later t ih =>
    obtain ⟨added, heq, h⟩ := ih
    rw [addOperationTypes_append, heq]
    cases ht : declares (known ++ added) t.operation with
    | true => exact ⟨added, if_pos ht, h.pass ht⟩
    | false =>
      have hpush : addOperationTypes (known ++ added) [t] = known ++ added ++ [t] :=
        if_neg (by simpa [declares] using ht)
      exact ⟨added ++ [t], by rw [hpush, List.append_assoc], h.push ht⟩

theorem flatMap_operationTypes (schemas : List SchemaDefinition) :
    (schemas.map Definition.schema).flatMap Definition.operationTypes =
      schemas.flatMap SchemaDefinition.operationTypes := by
  rw [List.flatMap_map]
  rfl

theorem requirePart_schemas (schemas : List SchemaDefinition) :
    requirePart "operation_types" (·.operationTypes?.isSome)
      (schemas.map fun s => ⟨.schema s, false⟩) = .ok () := by
  have hnone : (schemas.map fun s => (⟨.schema s, false⟩ : Contribution)).find?
      (fun c => !c.blank && !c.definition.operationTypes?.isSome) = none := by
    refine List.find?_eq_none.mpr fun c hc => ?_
    obtain ⟨s, -, rfl⟩ := List.mem_map.mp hc
    simp [Definition.operationTypes?]
  rw [requirePart, hnone]

theorem mergeOperationTypes?_schemas (first : SchemaDefinition) (others : List SchemaDefinition) :
    mergeOperationTypes? ((first :: others).map fun s => ⟨.schema s, false⟩) =
      .ok (mergeOperationTypes (.schema first) (others.map .schema)) := by
  have hparts := requirePart_schemas (first :: others)
  rw [List.map_cons] at hparts ⊢
  have hothers : (others.map fun s => (⟨.schema s, false⟩ : Contribution)).map
      Contribution.forOperationTypes = others.map .schema := by
    rw [List.map_map]
    rfl
  rw [mergeOperationTypes?, hparts, hothers]
  rfl

theorem declarations_mergeSchema_iff (ds : List Definition) (operation : Operation) :
    (∃ s ∈ mergeSchema ds, 1 < declarations operation s.operationTypes) ↔
      ∃ first ∈ (ds.filter Definition.isSchema).head?,
        1 < declarations operation first.operationTypes := by
  rw [mergeSchema]
  cases hs : ds.filter Definition.isSchema with
  | nil => simp
  | cons first others =>
    have hfirst : first ∈ ds.filter Definition.isSchema := by simp [hs]
    obtain ⟨s, rfl⟩ := Definition.exists_schema_of_isSchema (List.mem_filter.mp hfirst).2
    obtain ⟨added, heq, h⟩ := exists_addOperationTypes_eq s.operationTypes
      (others.flatMap Definition.operationTypes)
    have htypes : (mergeOperationTypes (.schema s) others).operationTypes =
        s.operationTypes ++ added := heq
    have hown : (Definition.schema s).operationTypes = s.operationTypes := rfl
    simp only [List.head?_cons, Option.mem_some_iff, exists_eq_left', htypes, hown]
    exact h.declarations_append operation

/-- Of several schema definitions the first is kept, with the earliest declaration of each operation
that only others declare. So one operation is declared more than once in merged documents only where
the first schema definition does so. -/
theorem mergeOperationTypes?_keepsFirst :
    (∀ (first : SchemaDefinition) (others : List SchemaDefinition), ∃ added,
      AddsEarliest first.operationTypes (others.flatMap SchemaDefinition.operationTypes) added ∧
      mergeOperationTypes? ((first :: others).map fun s => ⟨.schema s, false⟩) =
        .ok (.schema { first with
          operationTypes := first.operationTypes ++ added })) ∧
    ∀ (documents : List Document) (operation : Operation),
      let given := (allDefinitions documents).filter Definition.isSchema
      let merged := (mergeDocuments documents).definitions.filter Definition.isSchema
      (∃ s ∈ merged, 1 < declarations operation s.operationTypes) ↔
        ∃ first ∈ given.head?, 1 < declarations operation first.operationTypes := by
  refine ⟨fun first others => ?_, fun documents operation => ?_⟩
  · obtain ⟨added, heq, h⟩ := exists_addOperationTypes_eq first.operationTypes
      (others.flatMap SchemaDefinition.operationTypes)
    refine ⟨added, h, ?_⟩
    rw [mergeOperationTypes?_schemas, ← heq, ← flatMap_operationTypes]
    rfl
  · intro given merged
    have hmerged : merged = (mergeSchema (allDefinitions documents)).toList :=
      filter_isSchema_mergeDefinitions (allDefinitions documents)
    rw [← declarations_mergeSchema_iff, hmerged]
    simp only [Option.mem_toList, Option.mem_def]

end SchemaLoom
