import SchemaLoom.Proofs.Resolvers.Convention

/-! Merged resolver maps bind what the maps bind one after the other, if all of them keep to one
convention. -/

namespace SchemaLoom

namespace Resolver

variable {c : Convention} {schema : Schema} {t : NamedType}

section Map

variable {resolvers : List (String × Value)}

theorem IsResolverMapping.leads {value : Value} (h : IsResolverMapping value) (key : String) :
    value.Leads [key] := by
  obtain ⟨entries, rfl, hnd, hall⟩ := h
  refine ⟨entries, rfl, hnd, fun own hg => not_mapping_of_callable ?_⟩
  exact (hall key own (Entries.mem_of_get? hg)).2

/-- What is given for a slot as the convention has it can be followed to the value. -/
theorem leads_below {s : Slot} {value : Value} (hs : c.fills t s = true) (ht : typeOf s = t.name)
    (h : c.Allows t (c.key s) value) : value.Leads (c.below s) := by
  cases s with
  | isTypeOf type =>
    have hk : t.kind = .object := by simpa [Convention.fills] using hs
    exact not_mapping_of_callable ((h.member (.inl hk)).isTypeOf (isTypeOfKey_spelled _)).2
  | resolveType type =>
    have hspelled := isResolveTypeKey_spelled (c.resolveType type)
    have hk : t.kind = .interface ∨ t.kind = .union := by simpa [Convention.fills] using hs
    rcases hk with hk | hk
    · exact not_mapping_of_callable ((h.member (.inr hk)).resolveType hspelled).2
    · rw [Convention.Allows, hk] at h
      exact not_mapping_of_callable (h hspelled).2
  | resolve type field =>
    obtain rfl : type = t.name := ht
    have hk : (t.kind = .object ∨ t.kind = .interface) ∧ isSpecialKey field = false := by
      simpa [Convention.fills] using hs
    cases hm : c.usesMapping t.name field with
    | true =>
      simpa [Convention.below, hm] using ((h.member hk.1).mapping hk.2 hm).leads "resolve"
    | false =>
      simpa [Convention.below, hm, Value.Leads] using
        not_mapping_of_callable ((h.member hk.1).function hk.2 hm)
  | subscribe type field =>
    have hk : ((t.kind = .object ∨ t.kind = .interface) ∧ isSpecialKey field = false) ∧
        c.usesMapping t.name field = true := by
      simpa [Convention.fills] using hs
    exact ((h.member hk.1.1).mapping hk.1.2 hk.2).leads "subscribe"
  | enumValue type name =>
    have hk : t.kind = .enum := by simpa [Convention.fills] using hs
    rwa [Convention.Allows, hk] at h
  | _ =>
    have hk : t.kind = .scalar := by simpa [Convention.fills] using hs
    rw [Convention.Allows, hk] at h
    exact not_mapping_of_callable (h (by simp [Convention.key, isScalarKey]))

theorem Convention.Admits.leads (ha : c.Admits schema resolvers) {s : Slot}
    (hs : (schema.type? (typeOf s)).any (c.fills · s) = true) :
    (Value.mapping resolvers).Leads (typeOf s :: c.key s :: c.below s) := by
  obtain ⟨t, ht, hfills⟩ := (Option.any_eq_true _ _).mp hs
  refine ⟨resolvers, rfl, ha.nodup, fun value hg => ?_⟩
  obtain ⟨entries, rfl, hnd, hall⟩ := ha.entry _ value (Entries.mem_of_get? hg)
  refine ⟨entries, rfl, hnd, fun own hown => ?_⟩
  exact leads_below hfills (Schema.name_of_type? ht).symm
    (hall _ own (Entries.mem_of_get? hown) t ht)

/-! ### Merged maps -/

theorem callable_over {value : Value} (h : value.isCallable = true) (current : Option Value) :
    (value.over current).isCallable = true := by
  rwa [Value.over_of_not_mapping (not_mapping_of_callable h)]

theorem Convention.AllowsMember.over {type : Name} {key : String} {value : Value}
    {current : Option Value} (h : c.AllowsMember type key value)
    (hc : ∀ known, current = some known → c.AllowsMember type key known) :
    c.AllowsMember type key (value.over current) where
  resolveType hk := ⟨(h.resolveType hk).1, callable_over (h.resolveType hk).2 current⟩
  isTypeOf hk := ⟨(h.isTypeOf hk).1, callable_over (h.isTypeOf hk).2 current⟩
  mapping hk hm := Value.IsMappingOf.over
    (fun _ _ known ho _ => ⟨ho.1, callable_over ho.2 known⟩) (h.mapping hk hm)
    fun known hknown => (hc known hknown).mapping hk hm
  function hk hm := callable_over (h.function hk hm) current

theorem Convention.Allows.over {key : String} {value : Value} {current : Option Value}
    (h : c.Allows t key value) (hc : ∀ known, current = some known → c.Allows t key known) :
    c.Allows t key (value.over current) := by
  unfold Convention.Allows at h hc ⊢
  cases hk : t.kind <;> simp only [hk] at h hc ⊢
  case object => exact h.over hc
  case interface => exact h.over hc
  case union => exact fun hr => ⟨(h hr).1, callable_over (h hr).2 current⟩
  case enum => rwa [Value.over_of_not_mapping h]
  case scalar => exact fun hs => callable_over (h hs) current

variable {earlier later : List (String × Value)}

theorem Convention.Admits.deepMerge (he : c.Admits schema earlier) (hl : c.Admits schema later) :
    c.Admits schema (deepMerge earlier later) where
  nodup := nodup_keys_deepMerge he.nodup later
  entry _ _ hm :=
    forall_deepMerge he.nodup hl.nodup
      (fun _ _ _ hv hc => Value.IsMappingOf.over
        (fun _ _ _ ho hk t ht => (ho t ht).over fun known hknown => hk known hknown t ht) hv hc)
      he.entry hl.entry hm

theorem mem_keys_over {key : String} {source : List (String × Value)} {current : Option Value} :
    key ∈ Entries.keys ((Value.mapping source).over current).entries ↔
      key ∈ Entries.keys ((current.map Value.entries).getD []) ∨ key ∈ Entries.keys source :=
  mem_keys_deepMerge

theorem takes_over {source : List (String × Value)} {current : Option Value} :
    Takes t (Entries.keys ((Value.mapping source).over current).entries) ↔
      Takes t (Entries.keys source) ∧
        ∀ known, current = some known → Takes t (Entries.keys known.entries) := by
  simp only [Takes, mem_keys_over]
  cases current with
  | none => simp
  | some known =>
    simp only [Option.map_some, Option.getD_some, Option.some.injEq, forall_eq']
    constructor
    · rintro ⟨hk, h⟩
      exact ⟨⟨hk, fun key hm => h key (.inr hm)⟩, hk, fun key hm => h key (.inl hm)⟩
    · rintro ⟨⟨hk, hs⟩, -, hown⟩
      exact ⟨hk, fun key hm => hm.elim (hown key) (hs key)⟩

theorem fits_deepMerge (he : c.Admits schema earlier) (hl : c.Admits schema later) :
    Fits schema (deepMerge earlier later) ↔ Fits schema earlier ∧ Fits schema later := by
  have hnd := nodup_keys_deepMerge he.nodup later
  constructor
  · intro h
    have hget : ∀ name value, Entries.get? name (deepMerge earlier later) = some value →
        ∃ t, schema.type? name = some t ∧ Takes t (Entries.keys value.entries) :=
      fun name value hg => h name value (Entries.mem_of_get? hg)
    refine ⟨fun name value hm => ?_, fun name value hm => ?_⟩
    · have hg := Entries.get?_of_mem he.nodup hm
      cases hown : Entries.get? name later with
      | none => exact hget name value (by simp [get?_deepMerge hl.nodup, hown, hg])
      | some own =>
        obtain ⟨source, rfl, -, -⟩ := hl.entry name own (Entries.mem_of_get? hown)
        obtain ⟨t, ht, htakes⟩ := hget name _ (by rw [get?_deepMerge hl.nodup, hown]; rfl)
        exact ⟨t, ht, (takes_over.mp htakes).2 value hg⟩
    · obtain ⟨source, rfl, -, -⟩ := hl.entry name value hm
      have hg := Entries.get?_of_mem hl.nodup hm
      obtain ⟨t, ht, htakes⟩ := hget name _ (by rw [get?_deepMerge hl.nodup, hg]; rfl)
      exact ⟨t, ht, (takes_over.mp htakes).1⟩
  · rintro ⟨hearlier, hlater⟩ name value hm
    have hg := Entries.get?_of_mem hnd hm
    rw [get?_deepMerge hl.nodup] at hg
    cases hown : Entries.get? name later with
    | none => exact hearlier name value (Entries.mem_of_get? (by simpa [hown] using hg))
    | some own =>
      obtain rfl : own.over (Entries.get? name earlier) = value := by simpa [hown] using hg
      obtain ⟨source, rfl, -, -⟩ := hl.entry name own (Entries.mem_of_get? hown)
      obtain ⟨t, ht, htakes⟩ := hlater name _ (Entries.mem_of_get? hown)
      refine ⟨t, ht, takes_over.mpr ⟨htakes, fun known hk => ?_⟩⟩
      obtain ⟨t', ht', htakes'⟩ := hearlier name known (Entries.mem_of_get? hk)
      rwa [Option.some.inj (ht.symm.trans ht')]

/-- A merged map holds for a slot what the later one does, or else what the earlier one does. -/
theorem bound_deepMerge (he : c.Admits schema earlier) (hl : c.Admits schema later) (s : Slot) :
    c.bound schema (deepMerge earlier later) s =
      (c.bound schema later s).or (c.bound schema earlier s) := by
  unfold Convention.bound
  by_cases hs : (schema.type? (typeOf s)).any (c.fills · s) = true
  · have hknown : ∀ known, some (Value.mapping earlier) = some known →
        known.Leads (typeOf s :: c.key s :: c.below s) :=
      fun known hk => Option.some.inj hk ▸ he.leads hs
    have hover := (Value.over_leads hknown (hl.leads hs)).2
    simp only [hs, if_true]
    exact hover
  · simp [hs]

end Map

/-! ### One map after the other -/

def addInTurn (schema : Schema) (maps : List (List (String × Value))) : Work ExecutableSchema :=
  maps.foldlM (fun built resolvers => addResolversWork built.schema resolvers built.bindings)
    ⟨schema, Bindings.initial⟩

variable {earlier later : List (String × Value)}

theorem addResolvers_deepMerge (he : c.Admits schema earlier) (hl : c.Admits schema later)
    (hearlier : Fits schema earlier) (hlater : Fits schema later) (b : Bindings) :
    addResolvers schema (deepMerge earlier later) b =
      addResolvers schema later (addResolvers schema earlier b) := by
  have hmerged := (fits_deepMerge he hl).mpr ⟨hearlier, hlater⟩
  ext s
  simp only [addResolvers, get_bindAll, lastFor_plan he hearlier, lastFor_plan hl hlater,
    lastFor_plan (he.deepMerge hl) hmerged, bound_deepMerge he hl, Option.getD_or]

theorem endFrom_addAdmitted {resolvers : List (String × Value)} (ha : c.Admits schema resolvers)
    (b : Bindings) (records : List LogRecord) :
    (Fits schema resolvers ∧ ((addResolversWork schema resolvers b).endFrom records).1 =
      .ok ⟨schema, addResolvers schema resolvers b⟩) ∨
    (¬ Fits schema resolvers ∧
      ∃ fault, ((addResolversWork schema resolvers b).endFrom records).1 =
        .error (.resolver fault)) := by
  rw [endFrom_addResolversWork, ← fault_plan_admitted ha]
  cases (plan schema resolvers).fault with
  | none => exact .inl ⟨rfl, rfl⟩
  | some fault => exact .inr ⟨by simp, fault, rfl⟩

theorem admits_foldl {maps : List (List (String × Value))} (he : c.Admits schema earlier)
    (hmaps : ∀ m ∈ maps, c.Admits schema m) : c.Admits schema (maps.foldl deepMerge earlier) := by
  induction maps generalizing earlier with
  | nil => exact he
  | cons m rest ih =>
    exact ih (he.deepMerge (hmaps m (List.mem_cons_self ..)))
      fun m' hm => hmaps m' (List.mem_cons_of_mem _ hm)

theorem fits_of_foldl {maps : List (List (String × Value))} (he : c.Admits schema earlier)
    (hmaps : ∀ m ∈ maps, c.Admits schema m) (hf : Fits schema (maps.foldl deepMerge earlier)) :
    Fits schema earlier := by
  induction maps generalizing earlier with
  | nil => exact hf
  | cons m rest ih =>
    have hm := hmaps m (List.mem_cons_self ..)
    exact ((fits_deepMerge he hm).mp
      (ih (he.deepMerge hm) (fun m' hm' => hmaps m' (List.mem_cons_of_mem _ hm')) hf)).1

/-- Maps that are added after others end as the merged map does: the bindings are the same, and a
map that does not fit makes the merged one not fit. -/
theorem endFrom_foldlM_addResolvers {maps : List (List (String × Value))}
    (he : c.Admits schema earlier) (hf : Fits schema earlier)
    (hmaps : ∀ m ∈ maps, c.Admits schema m) (b : Bindings) (records : List LogRecord) :
    (Fits schema (maps.foldl deepMerge earlier) ∧
      ((maps.foldlM (fun built m => addResolversWork built.schema m built.bindings)
        (ExecutableSchema.mk schema (addResolvers schema earlier b))).endFrom records).1 =
      .ok ⟨schema, addResolvers schema (maps.foldl deepMerge earlier) b⟩) ∨
    (¬ Fits schema (maps.foldl deepMerge earlier) ∧
      ∃ fault, ((maps.foldlM (fun built m => addResolversWork built.schema m built.bindings)
        (ExecutableSchema.mk schema (addResolvers schema earlier b))).endFrom records).1 =
        .error (.resolver fault)) := by
  -- What the maps so far have bound is what their merged map binds, so that the next one is merged
  -- with it on the one side and added to it on the other.
  induction maps generalizing earlier records with
  | nil => exact .inl ⟨hf, rfl⟩
  | cons m rest ih =>
    have hm := hmaps m (List.mem_cons_self ..)
    have hrest : ∀ m' ∈ rest, c.Admits schema m' := fun m' hm' =>
      hmaps m' (List.mem_cons_of_mem _ hm')
    have hmerged := he.deepMerge hm
    rw [List.foldl_cons, List.foldlM_cons, Work.endFrom_bind]
    rcases endFrom_addAdmitted hm (addResolvers schema earlier b) records with
      ⟨hfits, hadd⟩ | ⟨hfits, fault, hadd⟩
    · have hboth := (fits_deepMerge he hm).mpr ⟨hf, hfits⟩
      rw [← addResolvers_deepMerge he hm hf hfits] at hadd
      have hnext := ih hmerged hboth hrest
        ((addResolversWork schema m (addResolvers schema earlier b)).endFrom records).2
      rw [← Prod.eta ((addResolversWork schema m (addResolvers schema earlier b)).endFrom records),
        hadd]
      exact hnext
    · refine .inr ⟨fun h => hfits ((fits_deepMerge he hm).mp (fits_of_foldl hmerged hrest h)).2,
        fault, ?_⟩
      rw [← Prod.eta ((addResolversWork schema m (addResolvers schema earlier b)).endFrom records),
        hadd]

theorem mergedResolvers_eq {modules : List Module} {maps : List (List (String × Value))}
    (h : modules.mapM Module.entries = .ok maps) :
    mergedResolvers modules = .ok (maps.foldl deepMerge []) := by
  suffices hfrom : ∀ target, modules.foldlM (fun merged m => do
      return deepMerge merged (← m.entries)) target =
        (.ok (maps.foldl deepMerge target) : Except Failure _) from hfrom []
  induction modules generalizing maps with
  | nil =>
    obtain rfl : [] = maps := Except.ok.inj h
    exact fun _ => rfl
  | cons m rest ih =>
    rw [List.mapM_cons] at h
    cases hm : m.entries with
    | error failure => simp [hm, bind, Except.bind] at h
    | ok entries =>
      cases hrest : rest.mapM Module.entries with
      | error failure => simp [hm, hrest, bind, Except.bind] at h
      | ok others =>
        obtain rfl : entries :: others = maps := by
          simpa [hm, hrest, bind, Except.bind, pure, Except.pure] using h
        intro target
        rw [List.foldlM_cons, hm]
        exact ih hrest (deepMerge target entries)

end Resolver

theorem endFrom_buildFromModules {modules : List Module} {schema : Schema}
    {maps : List (List (String × Value))}
    (hdocuments : (combineDocuments (modules.map Module.document) false).outcome.1 = .ok schema)
    (hmaps : modules.mapM Module.entries = .ok maps) :
    ∃ records, (buildFromModules modules).outcome =
      (addResolversWork schema (maps.foldl deepMerge []) Bindings.initial).endFrom records := by
  rw [Work.outcome_eq] at hdocuments ⊢
  rw [buildFromModules, Work.endFrom_bind,
    ← Prod.eta ((combineDocuments (modules.map Module.document) false).endFrom []), hdocuments,
    Resolver.mergedResolvers_eq hmaps]
  exact ⟨_, rfl⟩

open Resolver in
/-- Modules bind as their resolver maps do one after the other. -/
theorem buildFromModules_addsInTurn (c : Convention) {modules : List Module} {schema : Schema}
    {maps : List (List (String × Value))}
    (hdocuments : (combineDocuments (modules.map Module.document) false).outcome.1 = .ok schema)
    (hmaps : modules.mapM Module.entries = .ok maps) (hadmits : ∀ m ∈ maps, c.Admits schema m) :
    ((∃ fault, (buildFromModules modules).outcome.1 = .error (.resolver fault)) ↔
      ∃ fault, (addInTurn schema maps).outcome.1 = .error (.resolver fault)) ∧
    ((¬ ∃ fault, (buildFromModules modules).outcome.1 = .error (.resolver fault)) →
      ∃ built, (buildFromModules modules).outcome.1 = .ok built ∧
        (addInTurn schema maps).outcome.1 = .ok built) := by
  have hempty : c.Admits schema [] := ⟨by simp, by simp⟩
  have hfits : Fits schema [] := by simp [Fits]
  obtain ⟨records, hbuilt⟩ := endFrom_buildFromModules hdocuments hmaps
  have htogether := endFrom_addAdmitted (admits_foldl hempty hadmits) Bindings.initial records
  have hinturn := endFrom_foldlM_addResolvers hempty hfits hadmits Bindings.initial []
  rw [hbuilt]
  rcases htogether with ⟨hf, hok⟩ | ⟨hf, fault, herror⟩
  · rcases hinturn with ⟨-, hok'⟩ | ⟨hf', -⟩
    · have hok' : (addInTurn schema maps).outcome.1 = _ := hok'
      exact ⟨by simp [hok, hok'], fun _ => ⟨_, hok, hok'⟩⟩
    · exact absurd hf hf'
  · rcases hinturn with ⟨hf', -⟩ | ⟨-, fault', herror'⟩
    · exact absurd hf' hf
    · have herror' : (addInTurn schema maps).outcome.1 = _ := herror'
      exact ⟨iff_of_true ⟨fault, herror⟩ ⟨fault', herror'⟩, fun h => absurd ⟨fault, herror⟩ h⟩

open Resolver in
/-- Two maps that overlap in a field's resolvers and in a special key, with a module that has none
between them. -/
theorem buildFromModules_addsInTurn_overlapping :
    let query : Definition := .type ⟨none, "Query", [],
      .object [] [⟨none, "node", [], .named "Node", none, []⟩,
        ⟨none, "tick", [], .named "Color", none, []⟩], none⟩
    let node : Definition := .type ⟨none, "Node", [],
      .interface [] [⟨none, "at", [], .named "Date", none, []⟩], none⟩
    let color : Definition := .type ⟨none, "Color", [], .enum [⟨none, "RED", []⟩], none⟩
    let date : Definition := .type ⟨none, "Date", [], .scalar, none⟩
    let first : List (String × Value) :=
      [("Query", .mapping [("tick", .mapping [("resolve", .function "tick")]),
        ("node", .function "node")]),
        ("Node", .mapping [("__resolveType", .function "typeOfNode")]),
        ("Color", .mapping [("RED", .integer 1)])]
    let second : List (String × Value) :=
      [("Date", .mapping [("serialize", .function "iso")]),
        ("Node", .mapping [("__resolveType", .function "otherTypeOfNode")]),
        ("Query", .mapping [("node", .function "otherNode"),
          ("tick", .mapping [("subscribe", .function "ticks")])])]
    let modules : List Module :=
      [⟨⟨[query, color]⟩, .mapping first⟩, ⟨⟨[node]⟩, .null⟩, ⟨⟨[date]⟩, .mapping second⟩]
    let c : Convention := ⟨fun _ field => field = "tick", fun _ => .camel, fun _ => .snake⟩
    ∃ schema built, (combineDocuments (modules.map Module.document) false).outcome.1 = .ok schema ∧
      modules.mapM Module.entries = .ok [first, [], second] ∧
      (∀ m ∈ [first, [], second], c.Admits schema m) ∧
      (buildFromModules modules).outcome.1 = .ok built ∧
      (addInTurn schema [first, [], second]).outcome.1 = .ok built := by
  intro query node color date first second modules c
  obtain ⟨schema, hschema⟩ : ∃ schema,
      (combineDocuments (modules.map Module.document) false).outcome.1 = .ok schema := by
    have hok : (combineDocuments (modules.map Module.document) false).outcome.1.isOk = true := by
      decide +kernel
    cases h : (combineDocuments (modules.map Module.document) false).outcome.1 with
    | ok schema => exact ⟨schema, rfl⟩
    | error failure => simp [h, Except.isOk, Except.toBool] at hok
  have hadmits : ∀ m ∈ [first, [], second], c.Admits schema m := by
    have hall : (combineDocuments (modules.map Module.document) false).outcome.1.toOption.all
        (fun s => decide (∀ m ∈ [first, [], second], c.Admits s m)) = true := by decide +kernel
    rw [hschema] at hall
    exact of_decide_eq_true hall
  have hmaps : modules.mapM Module.entries = .ok [first, [], second] := rfl
  have hfine : (addInTurn schema [first, [], second]).outcome.1.isOk = true := by
    have hall : (combineDocuments (modules.map Module.document) false).outcome.1.toOption.all
        (fun s => (addInTurn s [first, [], second]).outcome.1.isOk) = true := by decide +kernel
    rwa [hschema] at hall
  have hsame := buildFromModules_addsInTurn c hschema hmaps hadmits
  obtain ⟨built, hbuilt, hinturn⟩ := hsame.2 fun h => by
    obtain ⟨fault, herror⟩ := hsame.1.mp h
    simp [herror, Except.isOk, Except.toBool] at hfine
  exact ⟨schema, built, hschema, hmaps, hadmits, hbuilt, hinturn⟩

end SchemaLoom
