import Mathlib.Data.List.Duplicate
import SchemaLoom.Loader
import SchemaLoom.Proofs.Entries
import SchemaLoom.Proofs.Merge.Views
import SchemaLoom.Proofs.Schema.Building

/-! Object types that declare a field more than once, in one definition or in several. Such a
document is at fault, and where faults are not looked for, the first declaration of a field gives
it its place and the last one all else. -/

namespace SchemaLoom

/-- What is built of declarations: one thing for each name, in the order in which the names are
first declared, and made of the last declaration of its name. -/
structure TakesLast {α β : Type} (name : α → Name) (key : β → Name) (declares : α → β → Prop)
    (declared : List α) (built : List β) : Prop where
  names : built.map key = (declared.map name).eraseDups
  last : ∀ b ∈ built, ∃ a, declared.reverse.find? (name · = key b) = some a ∧ declares a b

section LastOfEach

variable {α β : Type} {name : α → Name} {key : β → Name}

theorem TakesLast.imp {declares weaker : α → β → Prop} {declared : List α} {built : List β}
    (h : TakesLast name key declares declared built)
    (himp : ∀ a b, declares a b → weaker a b) : TakesLast name key weaker declared built := by
  refine ⟨h.names, fun b hb => ?_⟩
  obtain ⟨a, ha, hab⟩ := h.last b hb
  exact ⟨a, ha, himp a b hab⟩

theorem get?_pairs (name : α → Name) (k : Name) (items : List α) :
    Entries.get? k (items.map fun item => (name item, item)) = items.find? (name · = k) := by
  induction items with
  | nil => rfl
  | cons item rest ih => by_cases hk : name item = k <;> simp [Entries.get?, hk, ih]

theorem keys_pairs (name : α → Name) (items : List α) :
    Entries.keys (items.map fun item => (name item, item)) = items.map name :=
  List.map_map ..

namespace Build

theorem find?_of_mem_pairs {items : List α} {e : Name × α}
    (he : e ∈ Entries.ofList (items.map fun item => (name item, item))) :
    items.reverse.find? (name · = e.1) = some e.2 := by
  have hnd : (Entries.keys (Entries.ofList (items.map fun item => (name item, item)))).Nodup := by
    rw [Entries.keys_ofList]
    exact Entries.nodup_eraseDups _
  have hget := Entries.get?_of_mem hnd he
  rwa [Entries.get?_ofList, ← List.map_reverse, get?_pairs] at hget

theorem name_of_mem_pairs {items : List α} {e : Name × α}
    (he : e ∈ Entries.ofList (items.map fun item => (name item, item))) : name e.2 = e.1 := by
  simpa using List.find?_some (find?_of_mem_pairs he)

theorem names_lastOfEach (name : α → Name) (items : List α) :
    (lastOfEach name items).map name = (items.map name).eraseDups := by
  have hnames : (lastOfEach name items).map name =
      Entries.keys (Entries.ofList (items.map fun item => (name item, item))) := by
    rw [lastOfEach, List.map_map]
    exact List.map_congr_left fun e he => name_of_mem_pairs he
  rw [hnames, Entries.keys_ofList, keys_pairs]

theorem find?_of_mem_lastOfEach {items : List α} {a : α} (h : a ∈ lastOfEach name items) :
    items.reverse.find? (name · = name a) = some a := by
  obtain ⟨e, he, rfl⟩ := List.mem_map.mp h
  rw [name_of_mem_pairs he]
  exact find?_of_mem_pairs he

theorem find?_of_forall₂ {related : α → β → Prop} {declared : List α} {found : List β}
    (h : List.Forall₂ related declared found) (hname : ∀ a b, related a b → key b = name a)
    {k : Name} {b : β} (hb : found.find? (key · = k) = some b) :
    ∃ a, declared.find? (name · = k) = some a ∧ related a b := by
  induction h with
  | nil => simp at hb
  | cons hab hrest ih =>
    rename_i a b' declared found
    have hkey := hname a b' hab
    by_cases hk : name a = k
    · have hk' : key b' = k := hkey.trans hk
      obtain rfl : b' = b := by simpa [hk'] using hb
      exact ⟨a, by simp [hk], hab⟩
    · have hk' : key b' ≠ k := fun h => hk (hkey.symm.trans h)
      obtain ⟨other, hother, hrel⟩ := ih (by simpa [hk'] using hb)
      exact ⟨other, by simpa [hk] using hother, hrel⟩

theorem takesLast_of_mapM {f : α → Except ε β} {declared : List α} {found : List β}
    (hname : ∀ a b, f a = .ok b → key b = name a) (h : declared.mapM f = .ok found) :
    TakesLast name key (fun a b => f a = .ok b) declared (lastOfEach key found) := by
  have hall := mapM_eq_ok_iff_forall₂.mp h
  constructor
  · rw [names_lastOfEach, mapM_keys hname h]
  · intro b hb
    have hfind := find?_of_mem_lastOfEach hb
    exact find?_of_forall₂ (List.forall₂_reverse_iff.mpr hall) hname hfind

end Build

end LastOfEach

/-! ### What fields are built of -/

open Build

/-- An argument is as it is declared. Its default has an effect if it fits the type. -/
structure DeclaresArgument (doc : List Definition) (d : InputValueDefinition) (built : InputField) :
    Prop where
  name : built.name = d.name
  type : built.type = d.type
  default : built.default = d.default
  effective : (d.default.filterM fun value =>
    fitsType doc (inputTypes doc).fields value d.type) = .ok built.effective
  description : built.description = d.description.map StringLiteral.text
  deprecation : deprecation d.directives = .ok built.deprecation

/-- A field is as it is declared. Arguments may be declared more than once themselves. -/
structure DeclaresField (doc : List Definition) (d : FieldDefinition) (built : Field) : Prop where
  name : built.name = d.name
  type : built.type = d.type
  description : built.description = d.description.map StringLiteral.text
  deprecation : deprecation d.directives = .ok built.deprecation
  arguments : TakesLast InputValueDefinition.name InputField.name (DeclaresArgument doc)
    d.arguments built.arguments

section Fields

variable {doc : List Definition}

theorem declaresArgument_of_inputField {d : InputValueDefinition} {built : InputField}
    (h : inputField doc (inputTypes doc).fields .argumentNotInput d.description d.name d.type
      d.default d.directives = .ok built) : DeclaresArgument doc d built := by
  rw [inputField] at h
  obtain ⟨kind, -, h⟩ := exists_of_bind_eq_ok h
  obtain ⟨effective, heffective, h⟩ := exists_of_bind_eq_ok h
  obtain ⟨reason, hreason, h⟩ := exists_of_bind_eq_ok h
  by_cases hk : isInput kind = true
  · rw [if_pos hk] at h
    obtain rfl := Except.ok.inj h
    exact ⟨rfl, rfl, rfl, heffective, rfl, hreason⟩
  · rw [if_neg hk] at h
    cases h

theorem takesLast_of_argumentsOf {ds : List InputValueDefinition} {built : List InputField}
    (h : argumentsOf doc (inputTypes doc) ds = .ok built) :
    TakesLast InputValueDefinition.name InputField.name (DeclaresArgument doc) ds built := by
  obtain ⟨found, hfound, h⟩ := exists_of_bind_eq_ok h
  obtain rfl := Except.ok.inj h
  refine (takesLast_of_mapM (fun d b hb => ?_) hfound).imp fun d b hb => ?_
  · exact (declaresArgument_of_inputField hb).name
  · exact declaresArgument_of_inputField hb

theorem declaresField_of_field {d : FieldDefinition} {built : Field}
    (h : field doc (inputTypes doc) d = .ok built) : DeclaresField doc d built := by
  rw [field] at h
  obtain ⟨kind, -, h⟩ := exists_of_bind_eq_ok h
  obtain ⟨arguments, harguments, h⟩ := exists_of_bind_eq_ok h
  obtain ⟨reason, hreason, h⟩ := exists_of_bind_eq_ok h
  by_cases hk : isOutput kind = true
  · rw [if_pos hk] at h
    obtain rfl := Except.ok.inj h
    exact ⟨rfl, rfl, rfl, hreason, takesLast_of_argumentsOf harguments⟩
  · rw [if_neg hk] at h
    cases h

theorem exists_of_noteWithin_eq_ok {type : Name} {part : TypePart} {α : Type} {result : Result α}
    {a : α} (h : noteWithin type part result = .ok a) : result = .ok a := by
  cases result with
  | error fault => cases h
  | ok own => exact h

theorem takesLast_of_outputFields {t : TypeDefinition} {built : List Field}
    (hown : extensionsOf doc t.name = []) (h : outputFields doc (inputTypes doc) t = .ok built) :
    TakesLast FieldDefinition.name Field.name (DeclaresField doc) (fieldsOf t) built := by
  have hwithin := exists_of_noteWithin_eq_ok h
  rw [partsOf, hown, List.flatMap_singleton] at hwithin
  obtain ⟨found, hfound, hwithin⟩ := exists_of_bind_eq_ok hwithin
  obtain rfl := Except.ok.inj hwithin
  refine (takesLast_of_mapM (fun d b hb => ?_) hfound).imp fun d b hb => ?_
  · exact (declaresField_of_field hb).name
  · exact declaresField_of_field hb

/-- A type with a standard name is the standard one. Any other object type has the fields that its
definition declares. -/
theorem type_of_object {t : TypeDefinition} {interfaces : List Name} {fields : List FieldDefinition}
    {type : NamedType} (hbody : t.body = .object interfaces fields)
    (hown : extensionsOf doc t.name = []) (h : namedType doc (inputTypes doc) t = .ok type) :
    (∀ standard, standardType? t.name = some standard → type = standard) ∧
      (standardType? t.name = none → ∃ implemented built,
        type = ⟨t.name, t.description.map StringLiteral.text, .object implemented built⟩ ∧
        TakesLast FieldDefinition.name Field.name (DeclaresField doc) fields built) := by
  rw [namedType] at h
  cases hs : standardType? t.name with
  | some standard =>
    rw [hs] at h
    obtain rfl := Except.ok.inj h
    exact ⟨fun other ho => Option.some.inj ho, by simp⟩
  | none =>
    rw [hs] at h
    obtain ⟨shape, hshape, h⟩ := exists_of_bind_eq_ok h
    obtain rfl := Except.ok.inj h
    have hkind : t.kind = .object := by rw [TypeDefinition.kind, hbody]; rfl
    rw [Build.shape, hkind] at hshape
    obtain ⟨implemented, -, hshape⟩ := exists_of_bind_eq_ok hshape
    obtain ⟨built, hbuilt, hshape⟩ := exists_of_bind_eq_ok hshape
    obtain rfl := Except.ok.inj hshape
    have hfields : fieldsOf t = fields := by rw [fieldsOf, hbody]; rfl
    have htakes := takesLast_of_outputFields hown hbuilt
    rw [hfields] at htakes
    exact ⟨by simp, fun _ => ⟨implemented, built, rfl, htakes⟩⟩

end Fields

/-! ### The merged definition -/

/-- The fields that the definitions of an object type declare, in their order. -/
def declaredFields (name : Name) (ds : List Definition) : List FieldDefinition :=
  (objectsNamed name ds).flatMap Definition.fields

/-- Whatever defines or extends the type with a name is an object type definition. -/
def OnlyObject (name : Name) (ds : List Definition) : Prop :=
  ∀ d ∈ ds, ∀ t, d.typePart? = some t → t.name = name → d.objectName? = some name

section Merged

variable {name : Name} {ds : List Definition}

theorem objectsNamed_ne_nil_of_declares (h : declaredFields name ds ≠ []) :
    objectsNamed name ds ≠ [] := by
  intro hnil
  simp [declaredFields, hnil] at h

theorem exists_mergedObject (h : objectsNamed name ds ≠ []) :
    ∃ t interfaces, objectsNamed name (mergeDefinitions ds) = [.type t] ∧ t.name = name ∧
      t.body = .object interfaces (declaredFields name ds) := by
  cases ho : objectsNamed name ds with
  | nil => exact absurd ho h
  | cons first others =>
    have hf : first ∈ objectsNamed name ds := by simp [ho]
    obtain ⟨t, interfaces, fields, rfl, hname, hbody⟩ :=
      Definition.objectName?_eq_some_iff.mp (objectName?_of_mem_objectsNamed hf)
    have hmerged := mergedObject_of_body ho hbody
    let merged : TypeDefinition := { t with body := .object interfaces (declaredFields name ds) }
    refine ⟨merged, interfaces, ?_, hname, rfl⟩
    rw [objectsNamed_mergeDefinitions, hmerged]
    rfl

namespace OnlyObject

theorem merged (h : OnlyObject name ds) : OnlyObject name (mergeDefinitions ds) := by
  intro d hd t ht hn
  have hname : d.name? = some name := by
    cases d with
    | type own => exact congrArg some ((congrArg _ (Option.some.inj ht)).trans hn)
    | typeExtension own => exact congrArg some ((congrArg _ (Option.some.inj ht)).trans hn)
    | _ => cases ht
  cases hk : d.mergeKind with
  | objectType => rw [Definition.objectName?, if_pos hk, hname]
  | schema => cases d.name?_of_isSchema (by simp [Definition.isSchema, hk]) ▸ hname
  | other =>
    -- What is neither an object type nor a schema definition was given so.
    have hm : d ∈ (mergeDefinitions ds).filter Definition.isOther :=
      List.mem_filter.mpr ⟨hd, by simp [Definition.isOther, hk]⟩
    rw [filter_isOther_mergeDefinitions] at hm
    exact h d (List.mem_filter.mp hm).1 t ht hn

theorem extensionsOf_eq_nil (h : OnlyObject name ds) : extensionsOf ds name = [] := by
  refine List.filter_eq_nil_iff.mpr fun t ht hn => ?_
  obtain ⟨d, hd, hown⟩ := List.mem_filterMap.mp ht
  cases d with
  | typeExtension own =>
    have hobject := h _ hd t hown (by simpa using hn)
    simp [Definition.objectName?, Definition.mergeKind] at hobject
  | _ => cases hown

theorem mem_objectsNamed (h : OnlyObject name ds) {t : TypeDefinition}
    (ht : t ∈ ds.filterMap Definition.typeDefined?) (hn : t.name = name) :
    .type t ∈ objectsNamed name ds := by
  obtain ⟨d, hd, hown⟩ := List.mem_filterMap.mp ht
  cases d with
  | type own =>
    obtain rfl : own = t := Option.some.inj hown
    have hobject := h _ hd own rfl hn
    exact List.mem_filter.mpr ⟨hd, by simpa [Definition.isObjectNamed] using hobject⟩
  | _ => cases hown

end OnlyObject

/-- The type that a schema has for an object type is built of the only definition of it. -/
theorem type?_of_object {doc : List Definition} {schema : Schema} {t : TypeDefinition}
    (hobject : OnlyObject t.name doc) (hone : objectsNamed t.name doc = [.type t])
    (hs : Build.schema doc = .ok schema) :
    ∃ type, namedType doc (inputTypes doc) t = .ok type ∧ schema.type? t.name = some type := by
  obtain ⟨-, directiveTypes, types, -, htypes, rfl⟩ := schema_eq_ok_iff_parts.mp hs
  let defined := doc.filterMap Definition.typeDefined?
  have ht : t ∈ lastOfEach TypeDefinition.name defined := by
    have hm : Definition.type t ∈ doc :=
      (List.mem_filter.mp (hone ▸ List.mem_singleton_self _ : _ ∈ objectsNamed t.name doc)).1
    have hname : t.name ∈ (lastOfEach TypeDefinition.name defined).map TypeDefinition.name := by
      rw [names_lastOfEach, List.mem_eraseDups]
      exact List.mem_map_of_mem (List.mem_filterMap.mpr ⟨_, hm, rfl⟩)
    obtain ⟨own, hown, hsame⟩ := List.mem_map.mp hname
    have hdefined : own ∈ defined :=
      List.mem_reverse.mp (List.mem_of_find?_eq_some (find?_of_mem_lastOfEach hown))
    have honly := hobject.mem_objectsNamed hdefined hsame
    rw [hone, List.mem_singleton] at honly
    obtain rfl := Definition.type.inj honly
    exact hown
  obtain ⟨type, htype, hbuilt⟩ := exists_mem_of_mapM htypes ht
  have hnd : (types.map NamedType.name).Nodup := by
    rw [mapM_keys (fun d t => name_of_namedType) htypes, names_lastOfEach]
    exact Entries.nodup_eraseDups _
  have hfind : types.find? (·.name = t.name) = some type :=
    (find?_key_eq_some_iff hnd).mpr ⟨htype, name_of_namedType hbuilt⟩
  refine ⟨type, hbuilt, ?_⟩
  rw [Schema.type?, assemble, allTypes, List.find?_append, hfind, Option.some_or]

end Merged

/-! ### Faults -/

namespace Validation

variable {doc before : List Definition} {fault : Name → SchemaFault} {name : Name}

theorem mem_repeats_of_mem {known names : List Name} (hk : name ∈ known) (h : name ∈ names) :
    fault name ∈ repeats fault known names := by
  induction names generalizing known with
  | nil => cases h
  | cons first rest ih =>
    rw [repeats]
    rcases List.mem_cons.mp h with rfl | hrest
    · rw [if_pos (List.contains_iff_mem.mpr hk)]
      exact List.mem_cons_self ..
    · split
      · exact List.mem_cons_of_mem _ (ih hk hrest)
      · exact ih (List.mem_cons_of_mem _ hk) hrest

theorem mem_repeats_of_duplicate {known names : List Name} (h : names.Duplicate name) :
    fault name ∈ repeats fault known names := by
  induction h generalizing known with
  | cons_mem hrest =>
    rw [repeats]
    split
    · exact List.mem_cons_self ..
    · exact mem_repeats_of_mem (List.mem_cons_self ..) hrest
  | cons_duplicate _ ih =>
    rw [repeats]
    split
    · exact List.mem_cons_of_mem _ ih
    · exact ih

theorem exists_definition_subset {ds : List Definition} {d : Definition} (hd : d ∈ ds) :
    ∃ earlier, definition doc earlier d ⊆ definitions doc before ds := by
  induction ds generalizing before with
  | nil => cases hd
  | cons first rest ih =>
    rw [definitions]
    rcases List.mem_cons.mp hd with rfl | hrest
    · exact ⟨before, List.subset_append_left ..⟩
    · obtain ⟨earlier, hearlier⟩ := @ih (first :: before) hrest
      exact ⟨earlier, List.subset_append_of_subset_right _ hearlier⟩

theorem severalFields_mem_type {extension : Bool} {t : TypeDefinition}
    (h : (fieldNames t).Duplicate name) :
    .severalFields t.name name ∈ type doc before extension t := by
  have hrepeats := @mem_repeats_of_duplicate (.severalFields t.name) _
    ((partsBefore before t.name).flatMap fieldNames) _ h
  simp only [type, typeHead, List.mem_append]
  exact .inl (.inl (.inl (.inl (.inr hrepeats))))

end Validation

theorem severalFields_mem_faults {ds : List Definition} {t : TypeDefinition} {name : Name}
    (hd : .type t ∈ ds) (h : (Validation.fieldNames t).Duplicate name) :
    .severalFields t.name name ∈ (Document.mk ds).faults := by
  obtain ⟨earlier, hearlier⟩ := Validation.exists_definition_subset hd
  exact hearlier (Validation.severalFields_mem_type h)

theorem outcome_of_faults {documents : List Document}
    (h : (mergeDocuments documents).faults ≠ []) :
    (combineDocuments documents false).outcome.1 =
      .error (.build (.faulty (mergeDocuments documents).faults)) := by
  have hnonempty : ¬ (mergeDocuments documents).faults.isEmpty = true :=
    fun he => h (List.isEmpty_iff.mp he)
  rw [outcome_combineDocuments, buildSchema, if_neg Bool.false_ne_true, if_neg hnonempty]
  rfl

theorem schema_of_combined {documents : List Document} {schema : Schema}
    (h : (combineDocuments documents true).outcome.1 = .ok schema) :
    Build.schema (mergeDefinitions (allDefinitions documents)) = .ok schema := by
  have hbuild : buildSchema (mergeDocuments documents) true =
      Build.schema (mergeDefinitions (allDefinitions documents)) := rfl
  rw [outcome_combineDocuments, hbuild] at h
  cases hb : Build.schema (mergeDefinitions (allDefinitions documents)) with
  | error fault =>
    rw [hb] at h
    cases h
  | ok own =>
    rw [hb] at h
    exact congrArg Except.ok (Except.ok.inj h)

/-- An object type declares fields more than once. Every such field is a fault. If faults are not
looked for, then the type is one that documents cannot define anew, or its fields are in the order
of their first declarations and as their last declarations say. -/
theorem combineDocuments_repeatedFields {documents : List Document} {name : Name}
    (hobject : OnlyObject name (allDefinitions documents))
    (hrepeated :
      ¬ ((declaredFields name (allDefinitions documents)).map FieldDefinition.name).Nodup) :
    let declared := declaredFields name (allDefinitions documents)
    let merged := mergeDefinitions (allDefinitions documents)
    (∃ faults, (combineDocuments documents false).outcome.1 = .error (.build (.faulty faults)) ∧
      (Failure.build (.faulty faults)).kind = .type ∧
      ∀ field, (declared.map FieldDefinition.name).Duplicate field →
        .severalFields name field ∈ faults) ∧
    ∀ schema, (combineDocuments documents true).outcome.1 = .ok schema →
      (∀ standard, standardType? name = some standard → schema.type? name = some standard) ∧
      (standardType? name = none → ∃ description interfaces fields,
        schema.type? name = some ⟨name, description, .object interfaces fields⟩ ∧
        TakesLast FieldDefinition.name Field.name (DeclaresField merged) declared fields) := by
  intro declared merged
  have hdeclared : declaredFields name (allDefinitions documents) ≠ [] := by
    intro hnil
    exact hrepeated (hnil ▸ List.nodup_nil)
  obtain ⟨t, interfaces, hone, rfl, hbody⟩ :=
    exists_mergedObject (objectsNamed_ne_nil_of_declares hdeclared)
  have hmem : .type t ∈ merged :=
    (List.mem_filter.mp (hone ▸ List.mem_singleton_self _ : _ ∈ objectsNamed t.name merged)).1
  constructor
  · have hnames : Validation.fieldNames t = declared.map FieldDefinition.name := by
      rw [Validation.fieldNames, hbody]
      rfl
    have hall : ∀ field, (declared.map FieldDefinition.name).Duplicate field →
        .severalFields t.name field ∈ (Document.mk merged).faults :=
      fun field hfield => severalFields_mem_faults hmem (hnames ▸ hfield)
    obtain ⟨field, hfield⟩ := List.exists_duplicate_iff_not_nodup.mpr hrepeated
    have hfaulty : (mergeDocuments documents).faults ≠ [] :=
      List.ne_nil_of_mem (hall field hfield)
    exact ⟨_, outcome_of_faults hfaulty, rfl, hall⟩
  · intro schema hschema
    have hbuilt := schema_of_combined hschema
    have honly := hobject.merged
    obtain ⟨type, htype, hfound⟩ := type?_of_object honly hone hbuilt
    obtain ⟨hstandard, hown⟩ := type_of_object hbody honly.extensionsOf_eq_nil htype
    refine ⟨fun standard hs => ?_, fun hs => ?_⟩
    · rw [hfound, hstandard standard hs]
    · obtain ⟨implemented, fields, rfl, htakes⟩ := hown hs
      exact ⟨_, implemented, fields, hfound, htakes⟩

/-- A field is declared again in the same definition and in another document, another field in
another document only. -/
theorem combineDocuments_repeatedFields_post :
    let argument (name type : Name) : InputValueDefinition := ⟨none, name, .named type, none, []⟩
    let field (name type : Name) (arguments : List InputValueDefinition) : FieldDefinition :=
      ⟨none, name, arguments, .named type, none, []⟩
    let object (name : Name) (fields : List FieldDefinition) : Definition :=
      .type ⟨none, name, [], .object [] fields, none⟩
    let documents : List Document :=
      [⟨[object "Query" [field "post" "Post" []],
          object "Post" [field "id" "Int" [], field "title" "Int" [], field "id" "String" []]]⟩,
        ⟨[object "Post" [field "title" "String" [argument "upper" "Boolean"],
          field "body" "String" [], field "id" "ID" []]]⟩]
    (OnlyObject "Post" (allDefinitions documents) ∧
      ¬ ((declaredFields "Post" (allDefinitions documents)).map FieldDefinition.name).Nodup) ∧
    (∃ faults, (combineDocuments documents false).outcome.1 = .error (.build (.faulty faults)) ∧
      .severalFields "Post" "title" ∈ faults) ∧
    ∃ schema description interfaces fields,
      (combineDocuments documents true).outcome.1 = .ok schema ∧
      schema.type? "Post" = some ⟨"Post", description, .object interfaces fields⟩ ∧
      fields.map Field.name = ["id", "title", "body"] := by
  intro argument field object documents
  have hobject : OnlyObject "Post" (allDefinitions documents) := by
    have hall : ∀ d ∈ allDefinitions documents, d.typePart?.any (·.name = "Post") = true →
        d.objectName? = some "Post" := by decide +kernel
    intro d hd t ht hn
    exact hall d hd (by simp [ht, hn])
  have hrepeated :
      ¬ ((declaredFields "Post" (allDefinitions documents)).map FieldDefinition.name).Nodup := by
    decide +kernel
  obtain ⟨⟨faults, hfaults, -, hall⟩, hbuilt⟩ :=
    combineDocuments_repeatedFields hobject hrepeated
  obtain ⟨schema, hschema⟩ : ∃ s, (combineDocuments documents true).outcome.1 = .ok s :=
    isSome_toOption_iff.mp (by decide +kernel)
  obtain ⟨description, interfaces, fields, htype, htakes⟩ :=
    (hbuilt schema hschema).2 (by decide +kernel)
  refine ⟨⟨hobject, hrepeated⟩, ⟨faults, hfaults, hall "title" ?_⟩,
    schema, description, interfaces, fields, hschema, htype, ?_⟩
  · exact List.duplicate_iff_two_le_count.mpr (by decide +kernel)
  · rw [htakes.names]
    decide +kernel

/-- Definitions of a standard type do not give it their fields. -/
theorem standardType_without_fields :
    let field (name type : Name) : FieldDefinition := ⟨none, name, [], .named type, none, []⟩
    let object (name : Name) (fields : List FieldDefinition) : Definition :=
      .type ⟨none, name, [], .object [] fields, none⟩
    let documents : List Document :=
      [⟨[object "Query" [field "id" "ID"], object "ID" [field "value" "Int"]]⟩,
        ⟨[object "ID" [field "value" "Int"]]⟩]
    OnlyObject "ID" (allDefinitions documents) ∧
      ¬ ((declaredFields "ID" (allDefinitions documents)).map FieldDefinition.name).Nodup ∧
      ∃ schema, (combineDocuments documents true).outcome.1 = .ok schema ∧
        ¬ ∃ description interfaces fields,
          schema.type? "ID" = some ⟨"ID", description, .object interfaces fields⟩ ∧
          fields.map Field.name = ["value"] := by
  intro field object documents
  have hall : ∀ d ∈ allDefinitions documents, d.typePart?.any (·.name = "ID") = true →
      d.objectName? = some "ID" := by decide +kernel
  obtain ⟨schema, hschema, hscalar⟩ : ∃ s,
      (combineDocuments documents true).outcome.1 = .ok s ∧
        (s.type? "ID").any (·.shape.kind = .scalar) = true :=
    exists_ok_of_any (by decide +kernel)
  refine ⟨fun d hd t ht hn => hall d hd (by simp [ht, hn]), by decide +kernel,
    schema, hschema, ?_⟩
  rintro ⟨description, interfaces, fields, htype, -⟩
  simp [htype, Shape.kind] at hscalar

end SchemaLoom
