import SchemaLoom.Schema.Validation

/-! What definitions define. A document without extensions is free of faults if every definition is,
taken by itself, and no two of them define the same. -/

namespace SchemaLoom

open Validation

inductive Title where
  | schema
  | type (name : Name)
  | directive (name : Name)
deriving DecidableEq

namespace Definition

/-- What a definition defines. Extensions and what is executed define nothing. -/
def title? : Definition → Option Title
  | .schema _ => some .schema
  | .type d => some (.type d.name)
  | .directive d => some (.directive d.name)
  | _ => none

theorem title?_eq_type_iff {d : Definition} {name : Name} :
    d.title? = some (.type name) ↔ ∃ t, d = .type t ∧ t.name = name := by
  cases d <;> simp [title?]

theorem title?_eq_directive_iff {d : Definition} {name : Name} :
    d.title? = some (.directive name) ↔ ∃ r, d = .directive r ∧ r.name = name := by
  cases d <;> simp [title?]

theorem isSchema_iff_title? {d : Definition} :
    d.isSchema = true ↔ d.title? = some .schema := by
  cases d with
  | type t => cases hb : t.body <;>
      simp [isSchema, mergeKind, TypeDefinition.kind, TypeBody.kind, title?, hb]
  | _ => simp [isSchema, mergeKind, title?]

end Definition

def titles (ds : List Definition) : List (Option Title) := ds.map Definition.title?

/-- Every definition defines something. -/
def IsPlain (ds : List Definition) : Prop := ∀ d ∈ ds, d.title?.isSome = true

section Before

variable {doc before : List Definition}

theorem mem_definedTypeNames_iff {ds : List Definition} {name : Name} :
    name ∈ definedTypeNames ds ↔ some (.type name) ∈ titles ds := by
  simp only [definedTypeNames, titles, List.mem_map, List.mem_filterMap]
  constructor
  · rintro ⟨t, ⟨d, hm, hd⟩, rfl⟩
    cases d with
    | type own =>
      obtain rfl := Option.some.inj hd
      exact ⟨_, hm, rfl⟩
    | _ => cases hd
  · rintro ⟨d, hm, hd⟩
    obtain ⟨t, rfl, rfl⟩ := Definition.title?_eq_type_iff.mp hd
    exact ⟨t, ⟨_, hm, rfl⟩, rfl⟩

theorem mem_directiveNames_iff {ds : List Definition} {name : Name} :
    name ∈ (ds.filterMap Definition.directiveDefined?).map DirectiveDefinition.name ↔
      some (.directive name) ∈ titles ds := by
  simp only [titles, List.mem_map, List.mem_filterMap]
  constructor
  · rintro ⟨r, ⟨d, hm, hd⟩, rfl⟩
    cases d with
    | directive own =>
      obtain rfl := Option.some.inj hd
      exact ⟨_, hm, rfl⟩
    | _ => cases hd
  · rintro ⟨d, hm, hd⟩
    obtain ⟨r, rfl, rfl⟩ := Definition.title?_eq_directive_iff.mp hd
    exact ⟨r, ⟨_, hm, rfl⟩, rfl⟩

theorem any_isSchema_iff {ds : List Definition} :
    ds.any Definition.isSchema = true ↔ some .schema ∈ titles ds := by
  simp only [List.any_eq_true, titles, List.mem_map, Definition.isSchema_iff_title?]

theorem partsBefore_eq_nil (hb : IsPlain before) {name : Name}
    (h : some (.type name) ∉ titles before) : partsBefore before name = [] := by
  refine List.filter_eq_nil_iff.mpr fun t ht hname => h ?_
  obtain ⟨d, hm, hd⟩ := List.mem_filterMap.mp ht
  have hplain := hb d hm
  cases d with
  | type own =>
    obtain rfl := Option.some.inj hd
    exact List.mem_map.mpr ⟨_, hm, by simpa [Definition.title?] using hname⟩
  | typeExtension own => simp [Definition.title?] at hplain
  | _ => cases hd

theorem schemaParts_eq_nil (hb : IsPlain before) (h : some .schema ∉ titles before) :
    before.filterMap Definition.schemaPart? = [] := by
  refine List.filterMap_eq_nil_iff.mpr fun d hm => ?_
  have hplain := hb d hm
  cases d with
  | schema own => exact absurd (List.mem_map.mpr ⟨_, hm, rfl⟩) h
  | schemaExtension own => simp [Definition.title?] at hplain
  | _ => rfl

/-- All that the definitions before one can do to it is to define the same. -/
theorem definition_eq_nil_iff (hb : IsPlain before) {d : Definition}
    (hd : d.title?.isSome = true) :
    definition doc before d = [] ↔ definition doc [] d = [] ∧ d.title? ∉ titles before := by
  cases d with
  | schema s =>
    change schema doc before false s = [] ↔ schema doc [] false s = [] ∧ some Title.schema ∉ _
    by_cases h : some Title.schema ∈ titles before
    · simp [schema, any_isSchema_iff.mpr h, h]
    · have hany : before.any Definition.isSchema = false :=
        Bool.eq_false_iff.mpr (mt any_isSchema_iff.mp h)
      simp [schema, hany, schemaParts_eq_nil hb h, h]
  | type t =>
    change type doc before false t = [] ↔ type doc [] false t = [] ∧ some (Title.type t.name) ∉ _
    by_cases h : some (Title.type t.name) ∈ titles before
    · simp [type, typeHead, mem_definedTypeNames_iff, h]
    · have hparts : partsBefore before t.name = partsBefore [] t.name := partsBefore_eq_nil hb h
      have hbefore : t.name ∉ definedTypeNames before := mt mem_definedTypeNames_iff.mp h
      have hnone : t.name ∉ definedTypeNames [] := List.not_mem_nil
      simp [type, typeHead, hparts, hbefore, hnone, h]
  | directive r =>
    change directiveDefinition doc before r = [] ↔
      directiveDefinition doc [] r = [] ∧ some (Title.directive r.name) ∉ _
    have hknown := @mem_directiveNames_iff before r.name
    by_cases h : some (Title.directive r.name) ∈ titles before
    · simp [directiveDefinition, hknown.mpr h, h]
    · simp [directiveDefinition, mt hknown.mp h, h]
  | _ => simp [Definition.title?] at hd

theorem definitions_eq_nil_iff {ds : List Definition} (hb : IsPlain before) (hds : IsPlain ds) :
    definitions doc before ds = [] ↔
      (∀ d ∈ ds, definition doc [] d = [] ∧ d.title? ∉ titles before) ∧ (titles ds).Nodup := by
  induction ds generalizing before with
  | nil => simp [definitions, titles]
  | cons d rest ih =>
    have hd := hds d (List.mem_cons_self ..)
    have hrest : IsPlain rest := fun x hx => hds x (List.mem_cons_of_mem _ hx)
    have hbefore : IsPlain (d :: before) := List.forall_mem_cons.mpr ⟨hd, hb⟩
    rw [definitions, List.append_eq_nil_iff, definition_eq_nil_iff hb hd, ih hbefore hrest]
    simp only [titles, List.map_cons, List.mem_cons, not_or, List.nodup_cons, List.mem_map]
    constructor
    · rintro ⟨hown, hall, hnd⟩
      refine ⟨fun x hx => ?_, ?_, hnd⟩
      · rcases hx with rfl | hx
        · exact ⟨hown.1, by simpa using hown.2⟩
        · exact ⟨(hall x hx).1, by simpa using (hall x hx).2.2⟩
      · rintro ⟨x, hx, hxd⟩
        exact (hall x hx).2.1 hxd
    · rintro ⟨hall, hfresh, hnd⟩
      refine ⟨hall d (.inl rfl), fun x hx => ⟨(hall x (.inr hx)).1, ?_, ?_⟩, hnd⟩
      · exact fun hxd => hfresh ⟨x, hx, hxd⟩
      · exact (hall x (.inr hx)).2

end Before

theorem faults_eq_nil_iff {ds : List Definition} (hds : IsPlain ds) :
    (Document.mk ds).faults = [] ↔
      (∀ d ∈ ds, definition ds [] d = []) ∧ (titles ds).Nodup := by
  have hnone : IsPlain [] := fun d hd => absurd hd List.not_mem_nil
  rw [Document.faults, definitions_eq_nil_iff hnone hds]
  simp [titles]

end SchemaLoom
