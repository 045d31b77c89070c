import Mathlib
import SchemaLoom.Loader
import SchemaLoom.Proofs.Merge.Conservation

/-! The record of a merge. Every definition given is passed on, or it goes into the schema definition
or into a merged object type, or it is lost with the name of one. So the numbers in the record add up,
and there is a record if fewer definitions are left than were given. -/

namespace SchemaLoom

/-- Definitions of object types with certain names, counted name by name. -/
theorem countP_objectName? {names : List Name} (hnd : names.Nodup) (ds : List Definition) :
    ds.countP (fun d => d.objectName?.any names.contains) =
      (names.map fun name => (objectsNamed name ds).length).sum := by
  induction names with
  | nil =>
    have hnone : ∀ d : Definition, d.objectName?.any (List.contains []) = false := fun d => by
      cases d.objectName? <;> rfl
    simp [hnone]
  | cons name names ih =>
    have hd := List.nodup_cons.mp hnd
    have hnamed : ∀ d : Definition, (d.objectName?.any (name :: names).contains &&
        d.isObjectNamed name) = d.isObjectNamed name := fun d => by
      cases hn : d.objectName? <;> simp +contextual [Definition.isObjectNamed, hn]
    have hothers : ∀ d : Definition, (d.objectName?.any (name :: names).contains &&
        !d.isObjectNamed name) = d.objectName?.any names.contains := fun d => by
      cases hn : d.objectName? with
      | none => rfl
      | some own =>
        by_cases he : own = name
        · simp [Definition.isObjectNamed, hn, he, hd.1]
        · simp [Definition.isObjectNamed, hn, he]
    rw [List.countP_eq_countP_filter_add ds _ (Definition.isObjectNamed name), List.countP_filter,
      List.countP_filter]
    simp only [hnamed, hothers, ih hd.2, List.map_cons, List.sum_cons, objectsNamed,
      List.countP_eq_length_filter]

/-- The definitions that are lost: they are of no object type, but have the name of one that is
defined more than once. -/
def lostDefinitions (ds : List Definition) : List Definition :=
  ds.filter fun d => d.isOther && sharesName ds d

theorem countP_sharesName (ds : List Definition) :
    ds.countP (sharesName ds) =
      ((duplicatedNames ds).map fun name => (objectsNamed name ds).length).sum +
        (lostDefinitions ds).length := by
  have hnd : (duplicatedNames ds).Nodup :=
    (nodup_keys_objectGroups ds).sublist (duplicatedNames_sublist ds)
  have hobject : ∀ d : Definition, (sharesName ds d && decide (d.mergeKind = .objectType)) =
      d.objectName?.any (duplicatedNames ds).contains := fun d => by
    rw [← hasNameIn_duplicatedNames]
    by_cases hk : d.mergeKind = .objectType <;> simp [hasNameIn, Definition.objectName?, hk]
  -- A schema definition has no name, so what is left is of another kind.
  have hother : ∀ d : Definition, (sharesName ds d && !decide (d.mergeKind = .objectType)) =
      (d.isOther && sharesName ds d) := fun d => by
    cases hk : d.mergeKind with
    | objectType => simp [Definition.isOther, hk]
    | schema =>
      have hnone := Definition.name?_of_isSchema (d := d) (by simp [Definition.isSchema, hk])
      simp [sharesName, hnone]
    | other => simp [Definition.isOther, hk]
  rw [List.countP_eq_countP_filter_add ds _ fun d => d.mergeKind = .objectType, List.countP_filter,
    List.countP_filter]
  simp only [hobject, hother, countP_objectName? hnd, lostDefinitions, List.countP_eq_length_filter]

theorem length_passedOn (ds : List Definition) :
    ds.length = (passedOn ds).length + ds.countP Definition.isSchema +
      ds.countP (sharesName ds) := by
  have hshared : ∀ d : Definition, (!d.isSchema && sharesName ds d) = sharesName ds d := fun d => by
    cases hs : d.isSchema with
    | false => rfl
    | true => simp [sharesName, Definition.name?_of_isSchema hs]
  have hkinds : ds.length = ds.countP Definition.isSchema + ds.countP (fun d => !d.isSchema) := by
    simpa using List.length_eq_countP_add_countP Definition.isSchema (l := ds)
  have hnames : ds.countP (fun d => !d.isSchema) =
      ds.countP (sharesName ds) + (passedOn ds).length := by
    rw [List.countP_eq_countP_filter_add ds _ (sharesName ds), List.countP_filter,
      List.countP_filter, passedOn, ← List.countP_eq_length_filter]
    simp only [hshared]
  omega

/-- Each object type keeps one of its definitions, and so does the schema. -/
theorem length_mergeDefinitions (ds : List Definition) :
    ds.length = (mergeDefinitions ds).length +
      ((duplicatedNames ds).map fun name => (objectsNamed name ds).length - 1).sum +
      (ds.countP Definition.isSchema - 1) + (lostDefinitions ds).length := by
  have hpassed := length_passedOn ds
  have hshared := countP_sharesName ds
  have hsum : ((duplicatedNames ds).map fun name => (objectsNamed name ds).length).sum =
      ((duplicatedNames ds).map fun name => (objectsNamed name ds).length - 1).sum +
        (duplicatedNames ds).length := by
    have hone : ∀ name ∈ duplicatedNames ds,
        (objectsNamed name ds).length = (objectsNamed name ds).length - 1 + 1 := fun name hname => by
      have := mem_duplicatedNames_iff.mp hname
      omega
    rw [List.map_congr_left hone, List.sum_map_add]
    simp
  have hschema : (mergeSchema ds).toList.length = min 1 (ds.countP Definition.isSchema) := by
    rw [length_mergeSchema]
    by_cases hany : ds.any Definition.isSchema = true
    · have hpos : 0 < ds.countP Definition.isSchema := by
        simpa [List.countP_pos_iff] using hany
      rw [if_pos hany]
      omega
    · have hzero : ds.countP Definition.isSchema = 0 := by
        simpa [List.countP_eq_zero] using hany
      rw [if_neg hany, hzero]
      rfl
  have hobjects : (mergedObjects ds).length = (duplicatedNames ds).length := by
    simp [mergedObjects, duplicatedNames, Entries.keys]
  rw [mergeDefinitions_eq, List.length_append, List.length_append, hschema, hobjects]
  omega

/-- What is in the record of a merge: how many definitions there were and are, the object types that
were merged, by their first definitions, and the number of schema definitions. `balance` accounts for
each definition that is not there any more. -/
structure Accounts (given merged : List Definition) (report : MergeReport) : Prop where
  before : report.before = given.length
  after : report.after = merged.length
  types : ∀ name, name ∈ report.types ↔ 1 < (objectsNamed name given).length
  order : report.types.Pairwise fun a b =>
    (objectNames given).idxOf a < (objectNames given).idxOf b
  schemas : report.schemas = given.countP Definition.isSchema
  balance : given.length = merged.length +
    (report.types.map fun name => (objectsNamed name given).length - 1).sum +
    (report.schemas - 1) + (lostDefinitions given).length
  text : (LogRecord.merged report).message =
    "Merged " ++ toString given.length ++ " definitions into " ++ toString merged.length ++
      " (types merged: " ++ (if report.types.isEmpty then "none" else ", ".intercalate report.types) ++
      ", schema definitions: " ++ toString (given.countP Definition.isSchema) ++ ")."

/-- There is a record if object types or schema definitions were brought together. -/
theorem mergeReport?_eq (documents : List Document) :
    let given := allDefinitions documents
    let merged := mergeDefinitions given
    mergeReport? documents =
      if merged.length < given.length then
        some ⟨given.length, merged.length, duplicatedNames given,
          given.countP Definition.isSchema⟩
      else none := by
  intro given merged
  have hbalance : given.length = merged.length +
      ((duplicatedNames given).map fun name => (objectsNamed name given).length - 1).sum +
      (given.countP Definition.isSchema - 1) + (lostDefinitions given).length :=
    length_mergeDefinitions given
  change (if (duplicatedNames given).isEmpty && decide (given.countP Definition.isSchema ≤ 1)
    then none else some _) = _
  cases hnames : duplicatedNames given with
  | nil =>
    have hlost : (lostDefinitions given).length = 0 := by
      have hnone : ∀ d : Definition, sharesName given d = false := fun d => by
        rw [← hasNameIn_duplicatedNames, hnames]
        cases hn : d.name? <;> simp [hasNameIn, hn]
      simp [lostDefinitions, hnone]
    simp only [hnames, List.map_nil, List.sum_nil, hlost] at hbalance
    by_cases hone : given.countP Definition.isSchema ≤ 1
    · rw [if_pos (by simpa using hone), if_neg (by omega)]
    · rw [if_neg (by simpa using hone), if_pos (by omega)]
  | cons name rest =>
    have hname : 1 < (objectsNamed name given).length :=
      mem_duplicatedNames_iff.mp (hnames ▸ List.mem_cons_self ..)
    simp only [hnames, List.map_cons, List.sum_cons] at hbalance
    rw [if_neg (by simp), if_pos (by omega)]

theorem outcome_mergeWork (documents : List Document) :
    (mergeWork documents).outcome =
      (.ok (mergeDocuments documents), ((mergeReport? documents).map .merged).toList) := by
  rw [Work.outcome_eq, mergeWork]
  cases mergeReport? documents <;> rfl

/-- A merge keeps one record, which accounts for all definitions, if it has left fewer of them. If it
has not, it keeps none. -/
theorem mergeWork_records (documents : List Document) :
    let given := allDefinitions documents
    let merged := mergeDocuments documents
    ∃ report, Accounts given merged.definitions report ∧
      (mergeWork documents).outcome = (.ok merged,
        if merged.definitions.length < given.length then [.merged report] else []) := by
  intro given merged
  have hbalance := length_mergeDefinitions given
  have horder := (pairwise_keys_objectGroups given).sublist (duplicatedNames_sublist given)
  refine ⟨⟨given.length, merged.definitions.length, duplicatedNames given,
    given.countP Definition.isSchema⟩, ?_, ?_⟩
  · exact ⟨rfl, rfl, fun name => mem_duplicatedNames_iff, horder, rfl, hbalance, rfl⟩
  · rw [outcome_mergeWork, mergeReport?_eq]
    change (_, (Option.map _ (if merged.definitions.length < given.length then _ else _)).toList) = _
    by_cases hfewer : merged.definitions.length < given.length
    · rw [if_pos hfewer, if_pos hfewer]
      rfl
    · rw [if_neg hfewer, if_neg hfewer]
      rfl

end SchemaLoom
