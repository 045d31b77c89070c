import Mathlib
import SchemaLoom.Proofs.Resolvers.InTurn

/-! What is bound when several modules give something for the same slot. The maps of the modules are
merged key by key, so a later module overrides an earlier one only under the very same key, and
where both have mappings neither overrides the other. -/

namespace SchemaLoom

open Resolver

/-- The entries that a module has for a type. -/
def Module.entriesFor (m : Module) (name : Name) : List (String × Value) :=
  ((m.resolvers.at? [name]).map Value.entries).getD []

/-- Whether what other modules have for a type is kept beside what a module has. Something else than
a mapping replaces it all. -/
def Module.keepsOthers (m : Module) (name : Name) : Bool :=
  (m.resolvers.at? [name]).all Value.isMapping

/-- The modules that count for a type: those after the last one that replaces what others have. -/
def modulesCounting (name : Name) (modules : List Module) : List Module :=
  modules.rtakeWhile fun m => m.keepsOthers name

namespace Module

theorem at?_singleton (m : Module) (name : Name) :
    m.resolvers.at? [name] = Entries.get? name m.resolvers.entries := by
  change (Entries.get? name m.resolvers.entries).bind some = _
  exact Option.bind_fun_some _

theorem at?_pair (m : Module) (name key : String) :
    m.resolvers.at? [name, key] = Entries.get? key (m.entriesFor name) := by
  rw [entriesFor, at?_singleton]
  change (Entries.get? name m.resolvers.entries).bind (Value.at? [key]) = _
  cases Entries.get? name m.resolvers.entries with
  | none => rfl
  | some value => exact Option.bind_fun_some _

theorem resolvers_of_entries {m : Module} {entries : List (String × Value)}
    (h : m.entries = .ok entries) : entries = m.resolvers.entries := by
  obtain ⟨document, resolvers⟩ := m
  cases resolvers with
  | mapping own =>
    cases own with
    | nil => exact (Except.ok.inj h).symm
    | cons e rest => exact (Except.ok.inj h).symm
  | _ =>
    simp only [Module.entries] at h
    split at h
    · exact (Except.ok.inj h).symm
    · simp at h

theorem keepsOthers_of_entriesFor {m : Module} {name : Name} (h : m.entriesFor name ≠ []) :
    m.keepsOthers name = true := by
  simp only [entriesFor, keepsOthers] at h ⊢
  cases hm : m.resolvers.at? [name] with
  | none => rfl
  | some value =>
    cases value with
    | mapping _ => rfl
    | _ => simp [hm, Value.entries] at h

theorem distinctKeys_entriesFor {m : Module} (h : m.resolvers.distinctKeys = true) (name : Name) :
    (Value.mapping (m.entriesFor name)).distinctKeys = true := by
  have hempty : (Value.mapping []).distinctKeys = true := rfl
  rw [entriesFor, at?_singleton]
  cases hm : m.resolvers with
  | mapping entries =>
    cases hg : Entries.get? name entries with
    | none => simpa [Value.entries, hg] using hempty
    | some value =>
      have hv := Value.distinctKeys_of_get? (hm ▸ h) hg
      cases value with
      | mapping own => simpa [Value.entries, hg] using hv
      | _ => simpa [Value.entries, hg] using hempty
  | _ => exact hempty

end Module

section Modules

variable {modules : List Module} {name : Name}

theorem mergedResolvers_of_ok {merged : List (String × Value)}
    (h : mergedResolvers modules = .ok merged) :
    merged = (modules.map fun m => m.resolvers.entries).foldl deepMerge [] := by
  suffices hfrom : ∀ target, modules.foldlM (fun merged m => do
      return deepMerge merged (← m.entries)) target = (.ok merged : Except Failure _) →
        merged = (modules.map fun m => m.resolvers.entries).foldl deepMerge target from hfrom [] h
  clear h
  intro target h
  induction modules generalizing target with
  | nil => exact (Except.ok.inj h).symm
  | cons m rest ih =>
    rw [List.foldlM_cons] at h
    cases hm : m.entries with
    | error failure => simp [hm, bind, Except.bind] at h
    | ok entries =>
      obtain rfl := Module.resolvers_of_entries hm
      rw [hm] at h
      exact ih (deepMerge target m.resolvers.entries) h

theorem modulesCounting_concat (modules : List Module) (m : Module) :
    modulesCounting name (modules ++ [m]) =
      if m.keepsOthers name then modulesCounting name modules ++ [m] else [] :=
  List.rtakeWhile_concat _ _ _

theorem modulesCounting_append {after : List Module} (h : ∀ m ∈ after, m.keepsOthers name = true)
    (before : List Module) :
    modulesCounting name (before ++ after) = modulesCounting name before ++ after := by
  induction after using List.reverseRecOn with
  | nil => rw [List.append_nil, List.append_nil]
  | append_singleton after m ih =>
    have hm : m.keepsOthers name = true := h m (by simp)
    rw [← List.append_assoc, modulesCounting_concat, if_pos hm,
      ih fun m' hm' => h m' (List.mem_append_left _ hm'), List.append_assoc]

/-- If a module replaces what others have, no module before it counts. -/
theorem modulesCounting_subset {after : List Module}
    (h : ∃ later ∈ after, later.keepsOthers name = false) (before : List Module) :
    modulesCounting name (before ++ after) ⊆ after := by
  induction after using List.reverseRecOn with
  | nil => simp at h
  | append_singleton after last ih =>
    rw [← List.append_assoc, modulesCounting_concat]
    by_cases hl : last.keepsOthers name = true
    · have hafter : ∃ later ∈ after, later.keepsOthers name = false := by
        obtain ⟨later, hm, hf⟩ := h
        rcases List.mem_append.mp hm with hm | hm
        · exact ⟨later, hm, hf⟩
        · simp [List.mem_singleton.mp hm, hl] at hf
      rw [if_pos hl]
      exact List.append_subset.mpr
        ⟨List.Subset.trans (ih hafter) (List.subset_append_left _ _), List.subset_append_right _ _⟩
    · rw [if_neg hl]
      exact List.nil_subset _

theorem mem_of_mem_modulesCounting {m : Module} (h : m ∈ modulesCounting name modules) :
    m ∈ modules :=
  (List.rtakeWhile_suffix _ _).subset h

section Given

variable {f : Module → List β} {before after : List Module} {m : Module}

/-- What the modules that count give ends with what the last module gives that gives anything, if
that counts. -/
theorem flatMap_modulesCounting_of_kept
    (h : ∀ later ∈ m :: after, later.keepsOthers name = true)
    (hafter : ∀ later ∈ after, f later = []) :
    (modulesCounting name (before ++ m :: after)).flatMap f =
      (modulesCounting name before).flatMap f ++ f m := by
  have hnone : after.flatMap f = [] := List.flatMap_eq_nil_iff.mpr hafter
  rw [modulesCounting_append h, List.flatMap_append, List.flatMap_cons, hnone, List.append_nil]

theorem flatMap_modulesCounting_of_replaced
    (h : ∃ later ∈ after, later.keepsOthers name = false)
    (hafter : ∀ later ∈ after, f later = []) :
    (modulesCounting name (before ++ m :: after)).flatMap f = [] := by
  refine List.flatMap_eq_nil_iff.mpr fun m' hm' => hafter m' ?_
  rw [List.append_cons] at hm'
  exact modulesCounting_subset h _ hm'

end Given

/-- The merged map has for a type what the modules that count have for it, merged. -/
theorem entries_mergedResolvers (name : String)
    (hkeys : ∀ m ∈ modules, m.resolvers.distinctKeys = true) :
    ((Entries.get? name ((modules.map fun m => m.resolvers.entries).foldl deepMerge [])).map
        Value.entries).getD [] =
      ((modulesCounting name modules).map fun m => m.entriesFor name).foldl deepMerge [] := by
  induction modules using List.reverseRecOn with
  | nil => rfl
  | append_singleton modules m ih =>
    have hnd := Value.nodup_keys_entries (hkeys m (by simp))
    have hrest := ih fun m' hm' => hkeys m' (List.mem_append_left _ hm')
    rw [List.map_append, List.foldl_append, List.map_singleton, List.foldl_cons, List.foldl_nil,
      get?_deepMerge hnd, modulesCounting_concat]
    have hat := m.at?_singleton name
    cases hown : Entries.get? name m.resolvers.entries with
    | none =>
      have hkeeps : m.keepsOthers name = true := by simp [Module.keepsOthers, hat, hown]
      have hentries : m.entriesFor name = [] := by simp [Module.entriesFor, hat, hown]
      simpa [hkeeps, hentries] using hrest
    | some own =>
      cases own with
      | mapping source =>
        have hkeeps : m.keepsOthers name = true := by
          simp [Module.keepsOthers, hat, hown, Value.isMapping]
        have hentries : m.entriesFor name = source := by
          rw [Module.entriesFor, hat, hown]
          rfl
        rw [if_pos hkeeps, List.map_append, List.foldl_append, ← hrest]
        simp [hentries, Value.over, Value.entries]
      | _ =>
        have hkeeps : m.keepsOthers name = false := by
          simp [Module.keepsOthers, hat, hown, Value.isMapping]
        simp [hkeeps, Value.over, Value.entries]

end Modules

/-! ### What modules bind -/

section Build

variable {modules : List Module} {built : ExecutableSchema} {t : NamedType}

theorem exists_mergedResolvers (hbuilt : (buildFromModules modules).outcome.1 = .ok built) :
    ∃ merged, mergedResolvers modules = .ok merged ∧ (plan built.schema merged).fault = none ∧
      built.bindings = addResolvers built.schema merged Bindings.initial := by
  rw [Work.outcome_eq, buildFromModules, Work.endFrom_bind] at hbuilt
  rcases hc : (combineDocuments (modules.map Module.document) false).endFrom [] with ⟨result, more⟩
  rw [hc] at hbuilt
  cases result with
  | error failure => simp at hbuilt
  | ok schema =>
    dsimp only at hbuilt
    rw [Work.endFrom_bind, Work.endFrom_ofExcept] at hbuilt
    cases hm : mergedResolvers modules with
    | error failure => simp [hm, Except.mapError] at hbuilt
    | ok merged =>
      rw [hm] at hbuilt
      simp only [Except.mapError] at hbuilt
      rw [Work.endFrom_bind, Work.endFrom_record] at hbuilt
      dsimp only at hbuilt
      rw [endFrom_addResolversWork] at hbuilt
      cases hf : (plan schema merged).fault with
      | some fault => simp [hf] at hbuilt
      | none =>
        simp only [hf, Except.ok.injEq] at hbuilt
        obtain rfl := hbuilt
        exact ⟨merged, rfl, hf, rfl⟩

/-- Of the resolvers of a type that is not scalar only the entries count. -/
theorem givenFor_entries (hk : t.kind ≠ .scalar) (value : Value) (s : Slot) :
    givenFor t (.mapping value.entries) s = givenFor t value s := by
  cases s <;> simp [givenFor, Value.entries, hk]

theorem givenFor_nil (hk : t.kind ≠ .scalar) (s : Slot) : givenFor t (.mapping []) s = none := by
  cases s <;> simp [givenFor, Value.entries, lastUnder, Entries.get?, hk]

/-- A slot of a type that is not scalar has what the modules that count give for it, merged. -/
theorem get_buildFromModules (hbuilt : (buildFromModules modules).outcome.1 = .ok built)
    (hkeys : ∀ m ∈ modules, m.resolvers.distinctKeys = true)
    (ht : built.schema.type? t.name = some t) (hk : t.kind ≠ .scalar) {s : Slot}
    (hs : typeOf s = t.name) :
    built.bindings.get s =
      (givenFor t (.mapping (((modulesCounting t.name modules).map fun m =>
        m.entriesFor t.name).foldl deepMerge [])) s).getD (Bindings.initial.get s) := by
  obtain ⟨merged, hmerged, hfault, hbindings⟩ := exists_mergedResolvers hbuilt
  have hentries := entries_mergedResolvers t.name hkeys
  rw [← mergedResolvers_of_ok hmerged] at hentries
  have hnd : (Entries.keys merged).Nodup := by
    rw [mergedResolvers_of_ok hmerged]
    exact nodup_keys_foldl_deepMerge _
  have hbelow : ∀ value ∈ Entries.get? (typeOf s) merged, (Entries.keys value.entries).Nodup := by
    intro value hg
    rw [hs] at hg
    rw [hg, Option.map_some, Option.getD_some] at hentries
    exact hentries ▸ nodup_keys_foldl_deepMerge _
  rw [hbindings, addResolvers, get_bindAll,
    lastFor_plan_given hnd (fault_plan_eq_none_iff_fits.mp hfault) hbelow, given?, hs, ht,
    Option.bind_some, ← hentries]
  cases Entries.get? t.name merged with
  | none => rw [Option.map_none, Option.getD_none, givenFor_nil hk, Option.bind_none]
  | some value => rw [Option.map_some, Option.getD_some, givenFor_entries hk, Option.bind_some]

/-- Modules whose documents combine to a schema that has a type and that their merged map fits. -/
theorem exists_built {maps : List (List (String × Value))} {merged : List (String × Value)}
    {name : Name} {kind : TypeKind} (hmaps : modules.mapM Module.entries = .ok maps)
    (hmerged : maps.foldl deepMerge [] = merged)
    (h : (combineDocuments (modules.map Module.document) false).outcome.1.toOption.any
      (fun schema => (plan schema merged).fault.isNone &&
        (schema.type? name).any (·.kind = kind)) = true) :
    ∃ built t, (buildFromModules modules).outcome.1 = .ok built ∧
      built.schema.type? t.name = some t ∧ t.name = name ∧ t.kind = kind := by
  obtain ⟨schema, hschema, hfine⟩ := exists_ok_of_any h
  obtain ⟨records, hbuilt⟩ := endFrom_buildFromModules hschema hmaps
  obtain ⟨hnone, htype⟩ := Bool.and_eq_true_iff.mp hfine
  obtain ⟨t, ht, hkind⟩ := (Option.any_eq_true _ _).mp htype
  have hname := Schema.name_of_type? ht
  rw [hmerged, endFrom_addResolversWork, Option.isNone_iff_eq_none.mp hnone] at hbuilt
  refine ⟨⟨schema, addResolvers schema merged Bindings.initial⟩, t, ?_, hname.symm ▸ ht, hname,
    by simpa using hkind⟩
  rw [hbuilt]

theorem get_enumValue (hbuilt : (buildFromModules modules).outcome.1 = .ok built)
    (hkeys : ∀ m ∈ modules, m.resolvers.distinctKeys = true)
    (ht : built.schema.type? t.name = some t) (henum : t.kind = .enum) (value : Name) :
    built.bindings.get (.enumValue t.name value) =
      (Value.layered ((modulesCounting t.name modules).filterMap fun m =>
        m.resolvers.at? [t.name, value])).getD (.text value) := by
  have hget := get_buildFromModules hbuilt hkeys ht (by simp [henum])
    (rfl : typeOf (.enumValue t.name value) = t.name)
  let maps := (modulesCounting t.name modules).map fun m => m.entriesFor t.name
  have hentries : ∀ entries ∈ maps, (Entries.keys entries).Nodup := by
    intro entries hentries
    obtain ⟨m, hm, rfl⟩ := List.mem_map.mp hentries
    have hown := hkeys m (mem_of_mem_modulesCounting hm)
    exact (Value.distinctKeys_mapping.mp (Module.distinctKeys_entriesFor hown t.name)).1
  have hgiven : maps.filterMap (Entries.get? value) =
      (modulesCounting t.name modules).filterMap fun m => m.resolvers.at? [t.name, value] := by
    rw [List.filterMap_map]
    exact List.filterMap_congr fun m _ => (m.at?_pair t.name value).symm
  rw [givenFor, if_pos henum, Value.entries, get?_foldl_deepMerge hentries, hgiven] at hget
  exact hget

/-- The value of an enum is what the modules that count give for it, put over one another. It equals
what the last of all modules gives exactly if that has all keys of what the modules before it come
to, or, where a module after it replaces what others have for the enum, if it is the very name. -/
theorem buildFromModules_enumValue (hbuilt : (buildFromModules modules).outcome.1 = .ok built)
    (hkeys : ∀ m ∈ modules, m.resolvers.distinctKeys = true)
    (ht : built.schema.type? t.name = some t) (henum : t.kind = .enum) (value : Name) :
    let given (modules : List Module) :=
      (modulesCounting t.name modules).filterMap fun m => m.resolvers.at? [t.name, value]
    let bound := built.bindings.get (.enumValue t.name value)
    bound = (Value.layered (given modules)).getD (.text value) ∧
    ∀ before m after own, modules = before ++ m :: after →
      m.resolvers.at? [t.name, value] = some own →
      (∀ later ∈ after, later.resolvers.at? [t.name, value] = none) →
      (bound.SameAs own ↔
        ((∀ later ∈ after, later.keepsOthers t.name = true) ∧
          ∀ earlier, Value.layered (given before) = some earlier → own.Covers earlier) ∨
        ((∃ later ∈ after, later.keepsOthers t.name = false) ∧ own = .text value)) := by
  intro given bound
  have hbound : bound = (Value.layered (given modules)).getD (.text value) :=
    get_enumValue hbuilt hkeys ht henum value
  refine ⟨hbound, ?_⟩
  rintro before m after own rfl hown hafter
  have hpair := m.at?_pair t.name value
  have hkeeps : m.keepsOthers t.name = true := by
    refine Module.keepsOthers_of_entriesFor fun hnil => ?_
    rw [hpair, hnil] at hown
    cases hown
  have hdistinct : own.distinctKeys = true := by
    have hentries := Module.distinctKeys_entriesFor (hkeys m (by simp)) t.name
    exact Value.distinctKeys_of_get? hentries (hpair.symm.trans hown)
  have hnone : ∀ later ∈ after, (later.resolvers.at? [t.name, value]).toList = [] :=
    fun later hlater => by rw [hafter later hlater]; rfl
  have hflat : ∀ modules, given modules = (modulesCounting t.name modules).flatMap
      fun m => (m.resolvers.at? [t.name, value]).toList :=
    fun modules => List.filterMap_eq_flatMap_toList ..
  by_cases hall : ∀ later ∈ after, later.keepsOthers t.name = true
  · have hcount : given (before ++ m :: after) = given before ++ [own] := by
      rw [hflat, hflat, flatMap_modulesCounting_of_kept (List.forall_mem_cons.mpr ⟨hkeeps, hall⟩)
        hnone, hown, Option.toList_some]
    have hno : ¬ ∃ later ∈ after, later.keepsOthers t.name = false := by simpa using hall
    rw [hbound, hcount, Value.layered_concat, Option.getD_some, Value.over_sameAs_iff hdistinct]
    simp only [hno, false_and, or_false]
    exact ⟨fun h => ⟨hall, h⟩, fun h => h.2⟩
  · have hreplaced : ∃ later ∈ after, later.keepsOthers t.name = false := by simpa using hall
    have hcount : given (before ++ m :: after) = [] := by
      rw [hflat, flatMap_modulesCounting_of_replaced hreplaced hnone]
    have hname : bound.SameAs own ↔ own = .text value := by
      rw [hbound, hcount]
      exact Value.sameAs_iff_of_not_mapping rfl
    rw [hname]
    simp only [hall, hreplaced, false_and, true_and, false_or]

/-- A mapping that has all keys of the one before it, given after a value that is none. -/
theorem buildFromModules_enumValue_covering :
    let query : Definition := .type ⟨none, "Query", [],
      .object [] [⟨none, "color", [], .named "Color", none, []⟩], none⟩
    let color : Definition := .type ⟨none, "Color", [], .enum [⟨none, "RED", []⟩], none⟩
    let giving (red : Value) : Value := .mapping [("Color", .mapping [("RED", red)])]
    let last : Value := .mapping [("hex", .text "f00"), ("hue", .integer 0)]
    let before : List Module := [⟨⟨[query, color]⟩, giving (.integer 1)⟩,
      ⟨⟨[]⟩, giving (.mapping [("hue", .integer 120)])⟩]
    let modules := before ++ [⟨⟨[]⟩, giving last⟩]
    ∃ built, (buildFromModules modules).outcome.1 = .ok built ∧
      (built.bindings.get (.enumValue "Color" "RED")).SameAs last := by
  intro query color giving last before modules
  have hmerged : [[("Color", Value.mapping [("RED", .integer 1)])],
      [("Color", .mapping [("RED", .mapping [("hue", .integer 120)])])],
      [("Color", .mapping [("RED", last)])]].foldl deepMerge [] =
        [("Color", .mapping [("RED", .mapping [("hue", .integer 0), ("hex", .text "f00")])])] := by
    cbv
  obtain ⟨built, t, hbuilt, ht, hname, hkind⟩ : ∃ built t,
      (buildFromModules modules).outcome.1 = .ok built ∧ built.schema.type? t.name = some t ∧
        t.name = "Color" ∧ t.kind = .enum :=
    exists_built rfl hmerged (by decide +kernel)
  have hkeys : ∀ m ∈ modules, m.resolvers.distinctKeys = true := by decide
  refine ⟨built, hbuilt, ?_⟩
  have hsame := ((buildFromModules_enumValue hbuilt hkeys ht hkind "RED").2
    before ⟨⟨[]⟩, giving last⟩ [] last rfl (by rw [hname]; rfl) (by simp)).mpr
  rw [hname] at hsame
  refine hsame (.inl ⟨by simp, fun earlier hearlier => ?_⟩)
  have hlayered : Value.layered [.integer 1, .mapping [("hue", .integer 120)]] =
      some (.mapping [("hue", .integer 120)]) := by
    cbv
  obtain rfl := Option.some.inj (hlayered.symm.trans hearlier)
  intro path own others hown hothers key hk
  cases path with
  | nil =>
    obtain rfl := Value.mapping.inj (Option.some.inj hown)
    obtain rfl := Value.mapping.inj (Option.some.inj hothers)
    obtain rfl : key = "hue" := by simpa [Entries.keys] using hk
    decide
  | cons first rest =>
    -- There is no mapping below the first one.
    simp only [Value.at?, Value.entries, Entries.get?] at hothers
    split at hothers
    · cases rest <;> simp [Value.at?, Value.entries, Entries.get?] at hothers
    · simp at hothers

/-- Two mappings for one enum value are merged: the value is none that a module gives. -/
theorem enumValue_mergedOfMappings :
    let query (field : Name) : Definition := .type ⟨none, "Query", [],
      .object [] [⟨none, field, [], .named "Color", none, []⟩], none⟩
    let color : Definition := .type ⟨none, "Color", [], .enum [⟨none, "RED", []⟩], none⟩
    let giving (red : Value) : Value := .mapping [("Color", .mapping [("RED", red)])]
    let last : Value := .mapping [("hex", .text "ff0000")]
    let modules : List Module :=
      [⟨⟨[query "color", color]⟩, giving (.mapping [("r", .integer 255)])⟩,
        ⟨⟨[query "other"]⟩, giving last⟩]
    ∃ built, (buildFromModules modules).outcome.1 = .ok built ∧
      built.bindings.get (.enumValue "Color" "RED") =
        .mapping [("r", .integer 255), ("hex", .text "ff0000")] ∧
      ¬ (built.bindings.get (.enumValue "Color" "RED")).SameAs last := by
  intro query color giving last modules
  have hmerged : [[("Color", Value.mapping [("RED", .mapping [("r", .integer 255)])])],
      [("Color", .mapping [("RED", last)])]].foldl deepMerge [] =
        [("Color", .mapping [("RED", .mapping [("r", .integer 255), ("hex", .text "ff0000")])])] := by
    cbv
  obtain ⟨built, t, hbuilt, ht, hname, hkind⟩ : ∃ built t,
      (buildFromModules modules).outcome.1 = .ok built ∧ built.schema.type? t.name = some t ∧
        t.name = "Color" ∧ t.kind = .enum :=
    exists_built rfl hmerged (by decide +kernel)
  have hkeys : ∀ m ∈ modules, m.resolvers.distinctKeys = true := by decide
  have hvalue := get_enumValue hbuilt hkeys ht hkind "RED"
  have hlayered : Value.layered [.mapping [("r", .integer 255)], last] =
      some (.mapping [("r", .integer 255), ("hex", .text "ff0000")]) := by
    cbv
  rw [hname] at hvalue
  have hmergedValue := hvalue.trans (congrArg (Option.getD · (.text "RED")) hlayered)
  refine ⟨built, hbuilt, hmergedValue, fun hsame => ?_⟩
  have hr := hsame ["r"]
  rw [hmergedValue] at hr
  simp [last, Value.at?, Value.entries, Entries.get?] at hr

/-- The slot of a type that is filled under special keys, and those keys. -/
def special? (t : NamedType) : Option (Slot × (String → Bool)) :=
  match t.kind with
  | .object => some (.isTypeOf t.name, isTypeOfKey)
  | .interface => some (.resolveType t.name, isResolveTypeKey)
  | .union => some (.resolveType t.name, isResolveTypeKey)
  | _ => none

theorem givenFor_special {s : Slot} {spelled : String → Bool}
    (hs : special? t = some (s, spelled)) :
    t.kind ≠ .scalar ∧ typeOf s = t.name ∧ Bindings.initial.get s = .null ∧
      ∀ value, givenFor t value s = lastUnder spelled value.entries := by
  cases hk : t.kind <;>
    simp only [special?, hk, Option.some.injEq, Prod.mk.injEq, reduceCtorEq] at hs
  all_goals
    obtain ⟨rfl, rfl⟩ := hs
    exact ⟨by simp, rfl, rfl, fun value => by simp [givenFor, hk]⟩

/-- Of what is given under special keys the last is bound. Nothing is merged there, since functions
are no mappings. -/
theorem get_special (hbuilt : (buildFromModules modules).outcome.1 = .ok built)
    (hkeys : ∀ m ∈ modules, m.resolvers.distinctKeys = true)
    (ht : built.schema.type? t.name = some t) {s : Slot} {spelled : String → Bool}
    (hs : special? t = some (s, spelled))
    (hplain : ∀ m ∈ modules, ∀ e ∈ (m.entriesFor t.name).filter (spelled ·.1),
      e.2.isMapping = false) :
    let given := Entries.ofList ((modulesCounting t.name modules).flatMap fun m =>
      (m.entriesFor t.name).filter (spelled ·.1))
    (Entries.keys given).Nodup ∧
      built.bindings.get s = (given.getLast?.map Prod.snd).getD .null := by
  intro given
  obtain ⟨hk, htype, hinitial, hlast⟩ := givenFor_special hs
  have hmerged : deepMerge [] ((modulesCounting t.name modules).flatMap fun m =>
      (m.entriesFor t.name).filter (spelled ·.1)) = given := by
    refine deepMerge_eq_ofList fun e he => ?_
    obtain ⟨m, hm, hme⟩ := List.mem_flatMap.mp he
    exact hplain m (mem_of_mem_modulesCounting hm) e hme
  have hflat : ((modulesCounting t.name modules).map fun m => m.entriesFor t.name).flatten.filter
      (spelled ·.1) = (modulesCounting t.name modules).flatMap fun m =>
        (m.entriesFor t.name).filter (spelled ·.1) := by
    rw [List.filter_flatten, List.map_map, List.flatMap_def]
    rfl
  have hget := get_buildFromModules hbuilt hkeys ht hk htype
  rw [hlast, Value.entries, lastUnder, foldl_deepMerge, filter_deepMerge, hflat, List.filter_nil,
    hmerged, hinitial] at hget
  exact ⟨hmerged ▸ nodup_keys_deepMerge (by simp) _, hget⟩

/-- Of the functions given under special keys the one is bound that is the last under the spelling
that was the last to come up. So the last module's is bound exactly if no module after it replaces
what others have for the type, and it uses that spelling or gives the same function by chance. -/
theorem buildFromModules_specialKey (hbuilt : (buildFromModules modules).outcome.1 = .ok built)
    (hkeys : ∀ m ∈ modules, m.resolvers.distinctKeys = true)
    (ht : built.schema.type? t.name = some t) {s : Slot} {spelled : String → Bool}
    (hs : special? t = some (s, spelled))
    (hfunctions : ∀ m ∈ modules, ∀ e ∈ m.entriesFor t.name, spelled e.1 = true →
      e.2.isCallable = true) :
    let gives (m : Module) := (m.entriesFor t.name).filter (spelled ·.1)
    let given := Entries.ofList ((modulesCounting t.name modules).flatMap gives)
    let bound := built.bindings.get s
    bound = (given.getLast?.map Prod.snd).getD .null ∧
    ∀ before m after, modules = before ++ m :: after → gives m ≠ [] →
      (∀ later ∈ after, gives later = []) →
      (bound ∈ (gives m).map Prod.snd ↔
        (∀ later ∈ after, later.keepsOthers t.name = true) ∧
        ∃ key function, given.getLast? = some (key, function) ∧
          (key ∈ Entries.keys (gives m) ∨ function ∈ (gives m).map Prod.snd)) := by
  intro gives given bound
  have hcallable : ∀ m ∈ modules, ∀ e ∈ gives m, e.2.isCallable = true := by
    intro m hm e he
    obtain ⟨hentry, hspelled⟩ := List.mem_filter.mp he
    exact hfunctions m hm e hentry hspelled
  have hplain : ∀ m ∈ modules, ∀ e ∈ gives m, e.2.isMapping = false :=
    fun m hm e he => not_mapping_of_callable (hcallable m hm e he)
  obtain ⟨hnd, hbound⟩ : (Entries.keys given).Nodup ∧
      bound = (given.getLast?.map Prod.snd).getD .null :=
    get_special hbuilt hkeys ht hs hplain
  refine ⟨hbound, ?_⟩
  rintro before m after rfl hm hafter
  have hkeeps : m.keepsOthers t.name = true :=
    Module.keepsOthers_of_entriesFor fun hnil => hm (by simp [gives, hnil])
  have hnull : Value.null ∉ (gives m).map Prod.snd := by
    intro hnull
    obtain ⟨e, he, heq⟩ := List.mem_map.mp hnull
    have hc := hcallable m (by simp) e he
    simp [heq, Value.isCallable] at hc
  rw [hbound]
  by_cases hall : ∀ later ∈ after, later.keepsOthers t.name = true
  · have hgiven : given =
        Entries.ofList ((modulesCounting t.name before).flatMap gives ++ gives m) :=
      congrArg Entries.ofList
        (flatMap_modulesCounting_of_kept (List.forall_mem_cons.mpr ⟨hkeeps, hall⟩) hafter)
    constructor
    · intro hmem
      refine ⟨hall, ?_⟩
      cases hlast : given.getLast? with
      | none => exact absurd (by simpa [hlast] using hmem) hnull
      | some e => exact ⟨e.1, e.2, rfl, .inr (by simpa [hlast] using hmem)⟩
    · rintro ⟨-, key, function, hlast, huses⟩
      rw [hlast]
      rcases huses with hkey | hmem
      · have hown : (key, function) ∈ gives m :=
          mem_of_mem_ofList_append (hgiven ▸ hnd) (hgiven ▸ List.mem_of_getLast? hlast) hkey
        exact List.mem_map_of_mem hown
      · exact hmem
  · have hreplaced : ∃ later ∈ after, later.keepsOthers t.name = false := by simpa using hall
    have hempty : given = [] :=
      congrArg Entries.ofList (flatMap_modulesCounting_of_replaced hreplaced hafter)
    rw [hempty]
    constructor
    · exact fun hmem => absurd hmem hnull
    · exact fun h => absurd h.1 hall

/-- The last module uses both spellings, one of which is new. -/
theorem buildFromModules_specialKey_bothSpellings :
    let query : Definition := .type ⟨none, "Query", [],
      .object [] [⟨none, "node", [], .named "Node", none, []⟩], none⟩
    let node : Definition := .type ⟨none, "Node", [], .union ["Query"], none⟩
    let first : List (String × Value) := [("__resolveType", .function "typeOfNode")]
    let last : List (String × Value) :=
      [("__resolve_type", .function "type_of_node"), ("__resolveType", .function "kindOfNode")]
    let modules : List Module := [⟨⟨[query]⟩, .mapping [("Node", .mapping first)]⟩,
      ⟨⟨[node]⟩, .mapping [("Node", .mapping last)]⟩]
    ∃ built, (buildFromModules modules).outcome.1 = .ok built ∧
      built.bindings.get (.resolveType "Node") ∈ last.map Prod.snd := by
  intro query node first last modules
  have hmerged : [[("Node", Value.mapping first)], [("Node", .mapping last)]].foldl deepMerge [] =
      [("Node", .mapping [("__resolveType", .function "kindOfNode"),
        ("__resolve_type", .function "type_of_node")])] := by
    cbv
  obtain ⟨built, t, hbuilt, ht, hname, hkind⟩ : ∃ built t,
      (buildFromModules modules).outcome.1 = .ok built ∧ built.schema.type? t.name = some t ∧
        t.name = "Node" ∧ t.kind = .union :=
    exists_built rfl hmerged (by decide +kernel)
  have hspecial : special? t = some (.resolveType t.name, isResolveTypeKey) := by
    simp [special?, hkind]
  have hkeys : ∀ m ∈ modules, m.resolvers.distinctKeys = true := by decide
  have hfunctions : ∀ m ∈ modules, ∀ e ∈ m.entriesFor t.name, isResolveTypeKey e.1 = true →
      e.2.isCallable = true := by
    rw [hname]
    decide
  have hlast := ((buildFromModules_specialKey hbuilt hkeys ht hspecial
    hfunctions).2 [modules[0]] modules[1] [] rfl (by rw [hname]; decide) (by simp)).mpr
      ⟨by simp, "__resolve_type", .function "type_of_node", by rw [hname]; cbv,
        .inl (by rw [hname]; decide)⟩
  rw [hname] at hlast
  exact ⟨built, hbuilt, hlast⟩

/-- Of three modules that take turns with the spellings the second binds its function. -/
theorem specialKey_ofSecondModule :
    let query (field : Name) : Definition := .type ⟨none, "Query", [],
      .object [] [⟨none, field, [], .named "Int", none, []⟩], none⟩
    let giving (key function : String) : Value :=
      .mapping [("Query", .mapping [(key, .function function)])]
    let last : Module := ⟨⟨[query "c"]⟩, giving "__is_type_of" "third"⟩
    let modules : List Module := [⟨⟨[query "a"]⟩, giving "__is_type_of" "first"⟩,
      ⟨⟨[query "b"]⟩, giving "__isTypeOf" "second"⟩, last]
    ∃ built, (buildFromModules modules).outcome.1 = .ok built ∧
      built.bindings.get (.isTypeOf "Query") = .function "second" ∧
      last.entriesFor "Query" = [("__is_type_of", .function "third")] := by
  intro query giving last modules
  have hmerged : [[("Query", Value.mapping [("__is_type_of", .function "first")])],
      [("Query", .mapping [("__isTypeOf", .function "second")])],
      [("Query", .mapping [("__is_type_of", .function "third")])]].foldl deepMerge [] =
        [("Query", .mapping [("__is_type_of", .function "third"),
          ("__isTypeOf", .function "second")])] := by
    cbv
  obtain ⟨built, t, hbuilt, ht, hname, hkind⟩ : ∃ built t,
      (buildFromModules modules).outcome.1 = .ok built ∧ built.schema.type? t.name = some t ∧
        t.name = "Query" ∧ t.kind = .object :=
    exists_built rfl hmerged (by decide +kernel)
  have hspecial : special? t = some (.isTypeOf t.name, isTypeOfKey) := by
    simp [special?, hkind]
  have hkeys : ∀ m ∈ modules, m.resolvers.distinctKeys = true := by decide
  have hplain : ∀ m ∈ modules, ∀ e ∈ (m.entriesFor t.name).filter (isTypeOfKey ·.1),
      e.2.isMapping = false := by
    rw [hname]
    decide
  have hbound := (get_special hbuilt hkeys ht hspecial hplain).2
  rw [hname] at hbound
  have hgiven : Entries.ofList ((modulesCounting "Query" modules).flatMap fun m =>
      (m.entriesFor "Query").filter (isTypeOfKey ·.1)) =
        [("__is_type_of", .function "third"), ("__isTypeOf", .function "second")] := by
    cbv
  rw [hgiven] at hbound
  exact ⟨built, hbuilt, hbound, rfl⟩

end Build

end SchemaLoom
