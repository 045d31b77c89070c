import SchemaLoom.Loader
import SchemaLoom.Proofs.Merge.Stepwise
import SchemaLoom.Proofs.Results
import SchemaLoom.Proofs.Schema.Building

/-! Schemas whose types and schema definition are divided among documents. Combining the documents
builds the schema of the undivided definitions. -/

namespace SchemaLoom

open Validation

/-- The fields of a definition are divided among pieces, the first of which has all else of it. -/
def FieldPieces (d : Definition) (pieces : List Definition) : Prop :=
  ∃ first others, pieces = first :: others ∧
    (first.withFields (pieces.flatMap Definition.fields)).unlocated = d.unlocated

/-- The same for the operation types of a schema definition. -/
def OperationPieces (d : Definition) (pieces : List Definition) : Prop :=
  ∃ first others, pieces = first :: others ∧
    (first.withOperationTypes (pieces.flatMap Definition.operationTypes)).unlocated = d.unlocated

/-- The given definitions are those of a whole, up to locations, but that object types and the
schema definition may come in pieces. They come in any order, except for the pieces of a definition
and the definitions of directives. -/
structure Splitting (whole given : List Definition) : Prop where
  object : ∀ d ∈ whole, ∀ name ∈ d.objectName?, FieldPieces d (objectsNamed name given)
  ofObject : ∀ piece ∈ given, ∀ name ∈ piece.objectName?, objectsNamed name whole ≠ []
  schema : ∀ d ∈ whole, d.isSchema = true → OperationPieces d (given.filter Definition.isSchema)
  ofSchema : given.any Definition.isSchema = true → whole.any Definition.isSchema = true
  other : ((given.filter Definition.isOther).map Definition.unlocated).Perm
    ((whole.filter Definition.isOther).map Definition.unlocated)
  directives :
    (given.filterMap Definition.directiveDefined?).map DirectiveDefinition.unlocated =
      (whole.filterMap Definition.directiveDefined?).map DirectiveDefinition.unlocated

/-! ### Operation types -/

theorem addOperationTypes_of_nodup {known types : List OperationType}
    (h : ((known ++ types).map OperationType.operation).Nodup) :
    addOperationTypes known types = known ++ types := by
  induction types generalizing known with
  | nil => simp [addOperationTypes]
  | cons t rest ih =>
    have hnew : ¬ known.any (·.operation = t.operation) = true := by
      intro hany
      obtain ⟨k, hk, hkt⟩ := List.any_eq_true.mp hany
      rw [List.map_append, List.nodup_append] at h
      exact h.2.2 _ (List.mem_map_of_mem hk) _ (List.mem_map_of_mem (List.mem_cons_self ..))
        (by simpa using hkt)
    rw [addOperationTypes, if_neg hnew, ih (by simpa using h), List.append_assoc,
      List.singleton_append]

/-- A document without faults serves no operation twice. -/
theorem operationTypes_eq_nil_iff {known : List Operation} {types : List OperationType} :
    Validation.operationTypes known types = [] ↔
      (types.map OperationType.operation).Nodup ∧
        ∀ t ∈ types, t.operation ∉ known := by
  induction types generalizing known with
  | nil => simp [Validation.operationTypes]
  | cons t rest ih =>
    rw [Validation.operationTypes]
    by_cases hk : known.contains t.operation = true
    · have hm : t.operation ∈ known := List.contains_iff_mem.mp hk
      simp [hm]
    · have hm : t.operation ∉ known := fun hm => hk (List.contains_iff_mem.mpr hm)
      rw [if_neg hk, ih, List.map_cons, List.nodup_cons, List.forall_mem_cons, List.mem_map]
      simp only [List.mem_cons, not_or, not_exists, not_and]
      constructor
      · rintro ⟨hnd, hall⟩
        exact ⟨⟨fun x hx he => (hall x hx).1 he, hnd⟩, hm, fun x hx => (hall x hx).2⟩
      · rintro ⟨⟨hne, hnd⟩, -, hall⟩
        exact ⟨hnd, fun x hx => ⟨fun he => hne x hx he, hall x hx⟩⟩

theorem nodup_operations {doc : List Definition} {s : SchemaDefinition}
    (h : definition doc [] (.schema s) = []) :
    (s.operationTypes.map OperationType.operation).Nodup := by
  have hs : schema doc [] false s = [] := h
  simp only [schema, List.append_eq_nil_iff] at hs
  exact (operationTypes_eq_nil_iff.mp hs.1.1.1.2).1

/-! ### Views of the merged definitions -/

theorem title?_of_objectName? {d : Definition} {name : Name} (h : d.objectName? = some name) :
    d.title? = some (.type name) := by
  obtain ⟨t, _, _, rfl, rfl, -⟩ := Definition.objectName?_eq_some_iff.mp h
  rfl

theorem filter_eq_singleton {keep : Definition → Bool} {ds : List Definition}
    (hnd : (titles ds).Nodup) (title : Title) (hkeep : ∀ d, keep d = true → d.title? = some title)
    {d : Definition} (hd : d ∈ ds.filter keep) : ds.filter keep = [d] := by
  have hnd' : ((ds.filter keep).map Definition.title?).Nodup :=
    hnd.sublist (List.filter_sublist.map _)
  have htitle : ∀ x ∈ ds.filter keep, x.title? = some title := fun x hx =>
    hkeep x (List.mem_filter.mp hx).2
  cases hf : ds.filter keep with
  | nil => simp [hf] at hd
  | cons x rest =>
    rw [hf] at hd hnd' htitle
    have hrest : rest = [] := by
      refine List.eq_nil_iff_forall_not_mem.mpr fun y hy => ?_
      have hxy : x.title? = y.title? :=
        (htitle x (List.mem_cons_self ..)).trans (htitle y (List.mem_cons_of_mem _ hy)).symm
      exact (List.nodup_cons.mp hnd').1 (hxy ▸ List.mem_map_of_mem hy)
    rw [hrest] at hd ⊢
    rw [List.mem_singleton.mp hd]

theorem objectsNamed_eq_singleton {ds : List Definition} (hnd : (titles ds).Nodup) {name : Name}
    {d : Definition} (hd : d ∈ objectsNamed name ds) : objectsNamed name ds = [d] :=
  filter_eq_singleton hnd (.type name)
    (fun _ hx => title?_of_objectName? (of_decide_eq_true hx)) hd

theorem filter_isSchema_eq_singleton {ds : List Definition} (hnd : (titles ds).Nodup)
    {d : Definition} (hd : d ∈ ds.filter Definition.isSchema) :
    ds.filter Definition.isSchema = [d] :=
  filter_eq_singleton hnd .schema (fun _ hx => Definition.isSchema_iff_title?.mp hx) hd

namespace Splitting

variable {whole given : List Definition}

theorem objectsNamed_eq_nil (h : Splitting whole given) {name : Name}
    (hw : objectsNamed name whole = []) : objectsNamed name given = [] := by
  refine List.eq_nil_iff_forall_not_mem.mpr fun piece hm => ?_
  exact h.ofObject piece (List.mem_filter.mp hm).1 name (objectName?_of_mem_objectsNamed hm) hw

theorem objectsNamed_merged (h : Splitting whole given) (hnd : (titles whole).Nodup)
    (name : Name) : (objectsNamed name (mergeDefinitions given)).map Definition.unlocated =
      (objectsNamed name whole).map Definition.unlocated := by
  rw [objectsNamed_mergeDefinitions]
  by_cases hw : objectsNamed name whole = []
  · rw [hw, mergedObject_eq_none_iff.mpr (h.objectsNamed_eq_nil hw)]
    rfl
  · obtain ⟨d, hd⟩ := List.exists_mem_of_ne_nil _ hw
    obtain ⟨first, others, hgiven, heq⟩ :=
      h.object d (List.mem_filter.mp hd).1 name (objectName?_of_mem_objectsNamed hd)
    have hmerged : mergedObject name given = some (first.withFields
        ((objectsNamed name given).flatMap Definition.fields)) := by
      rw [mergedObject, hgiven]
      rfl
    rw [objectsNamed_eq_singleton hnd hd, hmerged, Option.toList_some, List.map_singleton, heq]
    rfl

theorem filter_isSchema_merged (h : Splitting whole given) (hnd : (titles whole).Nodup)
    (hfaults : ∀ d ∈ whole, definition whole [] d = []) :
    ((mergeDefinitions given).filter Definition.isSchema).map Definition.unlocated =
      (whole.filter Definition.isSchema).map Definition.unlocated := by
  rw [filter_isSchema_mergeDefinitions]
  by_cases hw : whole.filter Definition.isSchema = []
  · have hnone : given.filter Definition.isSchema = [] := by
      refine List.filter_eq_nil_iff.mpr fun piece hm hp => ?_
      obtain ⟨d, hd, hs⟩ := List.any_eq_true.mp (h.ofSchema (List.any_eq_true.mpr ⟨piece, hm, hp⟩))
      exact List.filter_eq_nil_iff.mp hw d hd hs
    rw [hw, mergeSchema, hnone]
    rfl
  · obtain ⟨d, hd⟩ := List.exists_mem_of_ne_nil _ hw
    obtain ⟨first, others, hgiven, heq⟩ :=
      h.schema d (List.mem_filter.mp hd).1 (List.mem_filter.mp hd).2
    have hfirst : first ∈ given.filter Definition.isSchema := by simp [hgiven]
    obtain ⟨s, rfl⟩ := Definition.exists_schema_of_isSchema (List.mem_filter.mp hfirst).2
    obtain ⟨hm, hschema⟩ := List.mem_filter.mp hd
    obtain ⟨w, rfl⟩ := Definition.exists_schema_of_isSchema hschema
    rw [hgiven] at heq
    have htypes : s.operationTypes ++ others.flatMap Definition.operationTypes =
        w.operationTypes := congrArg Definition.operationTypes heq
    have hmerged : mergeSchema given = some ((Definition.schema s).withOperationTypes
        (s.operationTypes ++ others.flatMap Definition.operationTypes)) := by
      have hnodup := nodup_operations (hfaults _ hm)
      rw [← htypes] at hnodup
      rw [mergeSchema, hgiven, ← addOperationTypes_of_nodup hnodup]
      rfl
    rw [filter_isSchema_eq_singleton hnd hd, hmerged]
    exact congrArg (fun own => [own]) heq

theorem objectsNamed_of_isOther (h : Splitting whole given) (hplain : IsPlain whole)
    (hnd : (titles whole).Nodup)
    (happart : ∀ r ∈ whole.filterMap Definition.directiveDefined?, objectsNamed r.name whole = [])
    {d : Definition} (hd : d ∈ given) (ho : d.isOther = true) {name : Name}
    (hn : d.name? = some name) : objectsNamed name given = [] := by
  refine h.objectsNamed_eq_nil ?_
  have hm : d.unlocated ∈ (given.filter Definition.isOther).map Definition.unlocated :=
    List.mem_map_of_mem (List.mem_filter.mpr ⟨hd, ho⟩)
  obtain ⟨x, hx, hxd⟩ := List.mem_map.mp (h.other.mem_iff.mp hm)
  obtain ⟨hxm, hxo⟩ := List.mem_filter.mp hx
  have hxn : x.name? = some name := by
    rw [← Definition.name?_unlocated, hxd, Definition.name?_unlocated, hn]
  have hxp := hplain x hxm
  cases x with
  -- Only directives and types have names; two types of one name would be one definition.
  | directive r =>
    obtain rfl : r.name = name := Option.some.inj hxn
    exact happart r (List.mem_filterMap.mpr ⟨_, hxm, rfl⟩)
  | type t =>
    obtain rfl : t.name = name := Option.some.inj hxn
    by_contra hne
    obtain ⟨y, hy⟩ := List.exists_mem_of_ne_nil _ hne
    have hyn := objectName?_of_mem_objectsNamed hy
    have heq : Definition.type t = y :=
      List.inj_on_of_nodup_map hnd hxm (List.mem_filter.mp hy).1 (title?_of_objectName? hyn).symm
    have hkind := Definition.mergeKind_of_objectName? hyn
    simp [Definition.isOther, heq, hkind] at hxo
  | schema s => simp [Definition.isOther, Definition.mergeKind] at hxo
  | _ => simp [Definition.title?] at hxp

theorem filter_isOther_merged (h : Splitting whole given) (hplain : IsPlain whole)
    (hnd : (titles whole).Nodup)
    (happart : ∀ r ∈ whole.filterMap Definition.directiveDefined?,
      objectsNamed r.name whole = []) :
    (mergeDefinitions given).filter Definition.isOther = given.filter Definition.isOther := by
  rw [filter_isOther_mergeDefinitions]
  refine List.filter_congr fun d hd => ?_
  cases ho : d.isOther with
  | false => rfl
  | true =>
    have hshares : sharesName given d = false := by
      cases hn : d.name? with
      | none => simp [sharesName, hn]
      | some name =>
        simp [sharesName, hn, h.objectsNamed_of_isOther hplain hnd happart hd ho hn]
    rw [hshares]
    rfl

theorem directives_filter_isOther (ds : List Definition) :
    (ds.filter Definition.isOther).filterMap Definition.directiveDefined? =
      ds.filterMap Definition.directiveDefined? := by
  rw [List.filterMap_filter]
  refine List.filterMap_congr fun d _ => ?_
  cases d with
  | directive r => rfl
  | _ => exact ite_self none

/-- The merged definitions are those of the whole, in some order. -/
theorem rearranged (h : Splitting whole given) (hplain : IsPlain whole)
    (hnd : (titles whole).Nodup) (hfaults : ∀ d ∈ whole, definition whole [] d = [])
    (happart : ∀ r ∈ whole.filterMap Definition.directiveDefined?,
      objectsNamed r.name whole = []) :
    Rearranged whole ((mergeDefinitions given).map Definition.unlocated) := by
  have hother := h.filter_isOther_merged hplain hnd happart
  refine ⟨perm_of_views (fun name => ?_) ?_ ?_, hplain, hnd, ?_⟩
  · have hnamed : ∀ d : Definition, d.unlocated.isObjectNamed name = d.isObjectNamed name :=
      fun d => by rw [Definition.isObjectNamed, Definition.objectName?_unlocated]; rfl
    rw [objectsNamed, objectsNamed, filter_unlocated hnamed, filter_unlocated hnamed]
    exact h.objectsNamed_merged hnd name
  · rw [filter_unlocated Definition.isSchema_unlocated,
      filter_unlocated Definition.isSchema_unlocated]
    exact h.filter_isSchema_merged hnd hfaults
  · have hown : ∀ d : Definition, d.unlocated.isOther = d.isOther :=
      fun d => by rw [Definition.isOther, Definition.mergeKind_unlocated]; rfl
    rw [filter_unlocated hown, filter_unlocated hown, hother]
    exact h.other
  · rw [filterMap_unlocated (fun d => by cases d <;> rfl), ← directives_filter_isOther, hother,
      directives_filter_isOther]
    exact h.directives

end Splitting

theorem buildSchema_eq_ok_iff {ds : List Definition} {s : Schema} :
    buildSchema ⟨ds⟩ false = .ok s ↔ (Document.mk ds).faults = [] ∧ Build.schema ds = .ok s := by
  by_cases hf : (Document.mk ds).faults = []
  · simp [buildSchema, hf]
  · simp [buildSchema, hf]

theorem Schema.Same.trans {s t u : Schema} (h : s.Same t) (h' : t.Same u) : s.Same u :=
  ⟨h.query.trans h'.query, h.mutation.trans h'.mutation, h.subscription.trans h'.subscription,
    h.description.trans h'.description, h.directiveTypes.trans h'.directiveTypes,
    h.types.trans h'.types, fun name => (h.type? name).trans (h'.type? name)⟩

theorem Schema.Same.symm {s t : Schema} (h : s.Same t) : t.Same s :=
  ⟨h.query.symm, h.mutation.symm, h.subscription.symm, h.description.symm,
    h.directiveTypes.symm, h.types.symm, fun name => (h.type? name).symm⟩

/-- A schema can be divided among documents: combining them builds the same schema. -/
theorem combineDocuments_of_splitting {whole : List Definition} {documents : List Document}
    {schema : Schema} (hplain : IsPlain whole)
    (happart : ∀ r ∈ whole.filterMap Definition.directiveDefined?, objectsNamed r.name whole = [])
    (hwhole : buildSchema ⟨whole⟩ false = .ok schema)
    (hsplit : Splitting whole (allDefinitions documents)) :
    ∃ built, (combineDocuments documents false).outcome.1 = .ok built ∧ built.Same schema := by
  obtain ⟨hfaults, hschema⟩ := buildSchema_eq_ok_iff.mp hwhole
  obtain ⟨hall, hnd⟩ := (faults_eq_nil_iff hplain).mp hfaults
  have hrearranged := hsplit.rearranged hplain hnd hall happart
  have hbare := hrearranged.of_unlocated
  obtain ⟨bare, hbuilt, hsame⟩ := Build.schema_of_rearranged hrearranged hschema
  obtain ⟨built, hmerged, hsame'⟩ := Build.schema_of_bare hbare hbuilt
  have hmergedFaults : (mergeDocuments documents).faults = [] :=
    hbare.faults_eq_nil_iff.mp (hrearranged.faults_eq_nil_iff.mpr hfaults)
  refine ⟨built, ?_, hsame'.symm.trans hsame⟩
  rw [outcome_combineDocuments, mergeDocuments,
    buildSchema_eq_ok_iff.mpr ⟨hmergedFaults, hmerged⟩]
  rfl

/-- A type and the schema definition are divided among three documents. -/
theorem combineDocuments_of_splitting_three :
    let field (name type : Name) : FieldDefinition := ⟨none, name, [], .named type, none, []⟩
    let object (description : Option StringLiteral) (name : Name) (fields : List FieldDefinition) :
      Definition := .type ⟨description, name, [], .object [] fields, none⟩
    let schema (types : List OperationType) : Definition := .schema ⟨none, [], types, none⟩
    let color : Definition := .type ⟨none, "Color", [], .enum [⟨none, "RED", []⟩], none⟩
    let either : Definition := .type ⟨none, "Either", [], .union ["Query"], none⟩
    let directive : Definition := .directive ⟨none, "Query_", [], false, [.object], none⟩
    let whole : List Definition :=
      [schema [⟨.query, "Query"⟩, ⟨.mutation, "Change"⟩],
        object none "Query" [field "a" "Color", field "b" "Either"],
        object none "Change" [field "c" "Query"], color, either, directive]
    let documents : List Document :=
      [⟨[either, object none "Query" [field "a" "Color"]]⟩,
        ⟨[schema [⟨.query, "Query"⟩], object none "Change" [field "c" "Query"],
          object (StringLiteral.mk "more" false) "Query" [field "b" "Either"], color]⟩,
        ⟨[schema [⟨.mutation, "Change"⟩], directive]⟩]
    (IsPlain whole ∧
      (∀ r ∈ whole.filterMap Definition.directiveDefined?, objectsNamed r.name whole = []) ∧
      Splitting whole (allDefinitions documents)) ∧
    ∃ schema built, buildSchema ⟨whole⟩ false = .ok schema ∧
      (combineDocuments documents false).outcome.1 = .ok built ∧ built.Same schema := by
  intro field object schema color either directive whole documents
  have hplain : IsPlain whole := by
    have hall : ∀ d ∈ whole, d.title?.isSome = true := by decide
    exact hall
  have happart : ∀ r ∈ whole.filterMap Definition.directiveDefined?,
      objectsNamed r.name whole = [] := by decide
  have hsplit : Splitting whole (allDefinitions documents) := by
    refine ⟨?_, by decide, ?_, by decide, ?_, rfl⟩
    · intro d hd name hn
      simp only [whole, List.mem_cons, List.not_mem_nil, or_false] at hd
      rcases hd with rfl | rfl | rfl | rfl | rfl | rfl
      all_goals cases hn
      · exact ⟨_, _, rfl, rfl⟩
      · exact ⟨_, _, rfl, rfl⟩
    · intro d hd hs
      simp only [whole, List.mem_cons, List.not_mem_nil, or_false] at hd
      rcases hd with rfl | rfl | rfl | rfl | rfl | rfl
      all_goals cases hs
      exact ⟨_, _, rfl, rfl⟩
    · exact .swap ..
  obtain ⟨built, hbuilt⟩ : ∃ s, buildSchema ⟨whole⟩ false = .ok s :=
    isSome_toOption_iff.mp (by decide +kernel)
  obtain ⟨combined, hcombined, hsame⟩ := combineDocuments_of_splitting hplain happart hbuilt hsplit
  exact ⟨⟨hplain, happart, hsplit⟩, built, combined, hbuilt, hcombined, hsame⟩

end SchemaLoom
