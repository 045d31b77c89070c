import SchemaLoom.Proofs.Resolvers.Convention

/-! The slots that are there for functions, and what a resolver map that fits puts into them. Only a
value that is given for a field as it is has to be a function. What comes under a special key, in a
mapping for a field or under a key of a scalar type is bound whatever it is. -/

namespace SchemaLoom

namespace Resolver

def fieldSlots (type field : Name) : List Slot := [.resolve type field, .subscribe type field]

/-- The slots of a type and of its fields that are there for functions. -/
def functionSlots (t : NamedType) : List Slot :=
  match t.shape with
  | .scalar _ => (scalarSlots t.name).map Prod.snd
  | .object _ fields => .isTypeOf t.name :: fields.flatMap fun f => fieldSlots t.name f.name
  | .interface _ fields => .resolveType t.name :: fields.flatMap fun f => fieldSlots t.name f.name
  | .union _ => [.resolveType t.name]
  | .enum _ => []
  | .inputObject _ _ => []

/-- What a slot for a function may hold: a function, or nothing yet. -/
def isFunctionOrNull : Value → Bool
  | .null => true
  | value => value.isCallable

/-- All slots for functions hold functions, or nothing yet. -/
def HoldsFunctions (schema : Schema) (b : Bindings) : Prop :=
  ∀ name, ∀ t ∈ schema.type? name, ∀ s ∈ functionSlots t, isFunctionOrNull (b.get s) = true

/-- What is bound of the resolvers of a type without a look at whether it is a function. Under the
spellings of one special key only the last value counts. -/
inductive BoundAsGiven (t : NamedType) (given value : Value) : Prop where
  | isTypeOf : t.kind = .object → lastUnder isTypeOfKey given.entries = some value →
    BoundAsGiven t given value
  | resolveType : t.kind = .interface ∨ t.kind = .union →
    lastUnder isResolveTypeKey given.entries = some value → BoundAsGiven t given value
  | member {field : Name} {inner : List (String × Value)} {key : String} :
    takesField t field = true → Entries.get? field given.entries = some (.mapping inner) →
    key = "resolve" ∨ key = "subscribe" → Entries.get? key inner = some value →
    BoundAsGiven t given value
  | scalar {key : String} : t.kind = .scalar → isScalarKey key = true →
    scalarFunction key given = some value → BoundAsGiven t given value

section Slots

variable {t : NamedType} {given value : Value} {s : Slot} {field key : Name}

theorem typeOf_of_mem_functionSlots (h : s ∈ functionSlots t) : typeOf s = t.name := by
  obtain ⟨name, description, shape⟩ := t
  have hfields : ∀ fields : List Field,
      s ∈ fields.flatMap (fun f => fieldSlots name f.name) → typeOf s = name := by
    intro fields hm
    obtain ⟨f, -, hf⟩ := List.mem_flatMap.mp hm
    simp only [fieldSlots, List.mem_cons, List.not_mem_nil, or_false] at hf
    rcases hf with rfl | rfl <;> rfl
  cases shape with
  | scalar =>
    simp only [functionSlots, scalarSlots, List.map_cons, List.map_nil, List.mem_cons,
      List.not_mem_nil, or_false] at h
    rcases h with rfl | rfl | rfl <;> rfl
  | object _ fields =>
    rcases List.mem_cons.mp h with rfl | h
    · rfl
    · exact hfields fields h
  | interface _ fields =>
    rcases List.mem_cons.mp h with rfl | h
    · rfl
    · exact hfields fields h
  | union _ =>
    obtain rfl := List.mem_singleton.mp h
    rfl
  | _ => cases h

theorem enumValue_notMem_functionSlots (type name : Name) :
    .enumValue type name ∉ functionSlots t := by
  obtain ⟨own, description, shape⟩ := t
  cases shape <;> simp [functionSlots, fieldSlots, scalarSlots]

/-- At first there are no functions in the slots of any schema. -/
theorem holdsFunctions_initial (schema : Schema) : HoldsFunctions schema Bindings.initial := by
  intro name t ht s hs
  cases s with
  | enumValue type name => exact absurd hs (enumValue_notMem_functionSlots type name)
  | _ => rfl

theorem fieldSlots_subset_functionSlots (ht : takesField t field = true)
    (hf : t.fields.any (·.name = field) = true) :
    fieldSlots t.name field ⊆ functionSlots t := by
  obtain ⟨name, description, shape⟩ := t
  obtain ⟨f, hm, hname⟩ := List.any_eq_true.mp hf
  obtain rfl : f.name = field := by simpa using hname
  have hfields : ∀ fields : List Field, f ∈ fields →
      fieldSlots name f.name ⊆ fields.flatMap fun f => fieldSlots name f.name :=
    fun fields hm s hs => List.mem_flatMap.mpr ⟨f, hm, hs⟩
  cases shape with
  | object _ fields => exact fun s hs => List.mem_cons_of_mem _ (hfields fields hm hs)
  | interface _ fields => exact fun s hs => List.mem_cons_of_mem _ (hfields fields hm hs)
  | _ => cases hm

theorem isTypeOf_mem_functionSlots (hk : t.kind = .object) :
    .isTypeOf t.name ∈ functionSlots t := by
  obtain ⟨name, description, shape⟩ := t
  cases shape with
  | object _ _ => exact List.mem_cons_self ..
  | _ => cases hk

theorem resolveType_mem_functionSlots (hk : t.kind = .interface ∨ t.kind = .union) :
    .resolveType t.name ∈ functionSlots t := by
  obtain ⟨name, description, shape⟩ := t
  cases shape with
  | interface _ _ => exact List.mem_cons_self ..
  | union _ => exact List.mem_cons_self ..
  | _ => rcases hk with hk | hk <;> cases hk

theorem functionSlots_of_scalar (hk : t.kind = .scalar) :
    functionSlots t = (scalarSlots t.name).map Prod.snd := by
  obtain ⟨name, description, shape⟩ := t
  cases shape with
  | scalar => rfl
  | _ => cases hk

theorem givenFor_scalarSlot (hk : t.kind = .scalar) (hkey : isScalarKey key = true)
    (given : Value) :
    ∃ s ∈ functionSlots t, givenFor t given s = scalarFunction key given := by
  have hslots := functionSlots_of_scalar hk
  simp only [isScalarKey, Bool.or_eq_true, decide_eq_true_eq] at hkey
  rcases hkey with (rfl | rfl) | rfl
  · exact ⟨.serialize t.name, by simp [hslots, scalarSlots], by rw [givenFor, if_pos hk]⟩
  · exact ⟨.parseValue t.name, by simp [hslots, scalarSlots], by rw [givenFor, if_pos hk]⟩
  · exact ⟨.parseLiteral t.name, by simp [hslots, scalarSlots], by rw [givenFor, if_pos hk]⟩

/-- Whatever is given for a field as it is can only be a function. -/
theorem callable_or_boundAsGiven (hs : s ∈ functionSlots t) (h : givenFor t given s = some value) :
    value.isCallable = true ∨ BoundAsGiven t given value := by
  have hfield : ∀ field key, key = "resolve" ∨ key = "subscribe" → takesField t field = true →
      (Entries.get? field given.entries).bind (fieldFunction key) = some value →
      value.isCallable = true ∨ BoundAsGiven t given value := by
    intro field key hkey ht hg
    obtain ⟨own, hown, hfunction⟩ := Option.bind_eq_some_iff.mp hg
    cases own with
    | mapping inner => exact .inr (.member ht hown hkey hfunction)
    | function name =>
      obtain ⟨-, rfl⟩ : key = "resolve" ∧ .function name = value := by
        simpa [fieldFunction] using hfunction
      exact .inl rfl
    | _ => cases hfunction
  cases s with
  | isTypeOf type =>
    obtain ⟨hk, hlast⟩ : t.kind = .object ∧ lastUnder isTypeOfKey given.entries = some value := by
      simpa [givenFor] using h
    exact .inr (.isTypeOf hk hlast)
  | resolveType type =>
    obtain ⟨hk, hlast⟩ : (t.kind = .interface ∨ t.kind = .union) ∧
        lastUnder isResolveTypeKey given.entries = some value := by simpa [givenFor] using h
    exact .inr (.resolveType hk hlast)
  | resolve type field =>
    obtain ⟨ht, hg⟩ : takesField t field = true ∧
        (Entries.get? field given.entries).bind (fieldFunction "resolve") = some value := by
      simpa [givenFor] using h
    exact hfield field "resolve" (.inl rfl) ht hg
  | subscribe type field =>
    obtain ⟨ht, hg⟩ : takesField t field = true ∧
        (Entries.get? field given.entries).bind (fieldFunction "subscribe") = some value := by
      simpa [givenFor] using h
    exact hfield field "subscribe" (.inr rfl) ht hg
  | serialize type =>
    obtain ⟨hk, hg⟩ : t.kind = .scalar ∧ scalarFunction "serialize" given = some value := by
      simpa [givenFor] using h
    exact .inr (.scalar hk rfl hg)
  | parseValue type =>
    obtain ⟨hk, hg⟩ : t.kind = .scalar ∧ scalarFunction "parse_value" given = some value := by
      simpa [givenFor] using h
    exact .inr (.scalar hk rfl hg)
  | parseLiteral type =>
    obtain ⟨hk, hg⟩ : t.kind = .scalar ∧ scalarFunction "parse_literal" given = some value := by
      simpa [givenFor] using h
    exact .inr (.scalar hk rfl hg)
  | enumValue type name => exact absurd hs (enumValue_notMem_functionSlots type name)

end Slots

section Entry

variable {schema : Schema} {resolvers : List (String × Value)} {name : Name} {t : NamedType}
  {given : Value} {key : String} {value : Value} {s : Slot}

theorem keyFits_of_mem (ht : schema.type? name = some t)
    (hfits : entryFits schema name given = true) (hm : (key, value) ∈ given.entries) : keyFits t key value = true := by
  cases given with
  | mapping entries =>
    have hall : t.kind ≠ .inputObject ∧ ∀ k v, (k, v) ∈ entries → keyFits t k v = true := by
      simpa [entryFits, ht] using hfits
    exact hall.2 key value hm
  | _ => cases hm

/-- Resolvers for a field fit only if the type declares the field. -/
theorem declares_of_fits (ht : schema.type? name = some t)
    (hfits : entryFits schema name given = true) (hf : takesField t key = true)
    (hm : (key, value) ∈ given.entries) :
    t.fields.any (·.name = key) = true ∧ (value.isMapping || value.isCallable) = true := by
  have hfit := keyFits_of_mem ht hfits hm
  obtain ⟨hk, hr, hi⟩ : (t.kind = .object ∨ t.kind = .interface) ∧
      isResolveTypeKey key = false ∧ isTypeOfKey key = false := by
    simpa [takesField, isSpecialKey] using hf
  rw [keyFits_member hk, hr, hi] at hfit
  simpa using hfit

/-- What a type is given decides about its slots, and nothing else does. -/
theorem get_addResolvers_of_mem (hkeys : (Value.mapping resolvers).distinctKeys = true)
    (hfits : ∀ e ∈ resolvers, entryFits schema e.1 e.2 = true) (hm : (name, given) ∈ resolvers)
    (ht : schema.type? name = some t) (hs : typeOf s = t.name) (b : Bindings) :
    (addResolvers schema resolvers b).get s = (givenFor t given s).getD (b.get s) := by
  have hname : typeOf s = name := hs.trans (Schema.name_of_type? ht)
  have hget := Entries.get?_of_mem (Value.distinctKeys_mapping.mp hkeys).1 hm
  rw [get_addResolvers hkeys hfits, given?, hname, ht, hget]
  rfl

theorem exists_slot_of_boundAsGiven (ht : schema.type? name = some t)
    (hfits : entryFits schema name given = true) (h : BoundAsGiven t given value) :
    ∃ s ∈ functionSlots t, givenFor t given s = some value := by
  cases h with
  | isTypeOf hk hlast =>
    exact ⟨_, isTypeOf_mem_functionSlots hk, by rw [givenFor, if_pos hk, hlast]⟩
  | resolveType hk hlast =>
    exact ⟨_, resolveType_mem_functionSlots hk, by rw [givenFor, if_pos hk, hlast]⟩
  | @member field inner key hf hfield hkey hvalue =>
    have hdeclares := (declares_of_fits ht hfits hf (Entries.mem_of_get? hfield)).1
    have hslots := fieldSlots_subset_functionSlots hf hdeclares
    rcases hkey with rfl | rfl
    · refine ⟨.resolve t.name field, hslots (by simp [fieldSlots]), ?_⟩
      rw [givenFor, if_pos hf, hfield]
      exact hvalue
    · refine ⟨.subscribe t.name field, hslots (by simp [fieldSlots]), ?_⟩
      rw [givenFor, if_pos hf, hfield]
      exact hvalue
  | @scalar key hk hkey hvalue =>
    obtain ⟨s, hs, hgiven⟩ := givenFor_scalarSlot hk hkey given
    exact ⟨s, hs, hgiven.trans hvalue⟩

end Entry

end Resolver

open Resolver in
/-- After a map was added that fits, the slots for functions hold nothing but functions if and only
if everything is a function, or nothing, that the map gives without its being looked at. -/
theorem addResolversWork_holdsFunctions_iff {schema : Schema} {resolvers : List (String × Value)}
    {b : Bindings} {built : ExecutableSchema}
    (hkeys : (Value.mapping resolvers).distinctKeys = true) (hb : HoldsFunctions schema b)
    (h : (addResolversWork schema resolvers b).outcome.1 = .ok built) :
    HoldsFunctions schema built.bindings ↔
      ∀ name given, (name, given) ∈ resolvers → ∀ t ∈ schema.type? name, ∀ value,
        BoundAsGiven t given value → isFunctionOrNull value = true := by
  obtain ⟨hfits, rfl⟩ := fits_of_ok h
  constructor
  · intro hholds name given hm t ht value hvalue
    obtain ⟨s, hs, hgiven⟩ := exists_slot_of_boundAsGiven ht (hfits _ hm) hvalue
    have hslot := hholds name t ht s hs
    rwa [get_addResolvers_of_mem hkeys hfits hm ht (typeOf_of_mem_functionSlots hs), hgiven]
      at hslot
  · intro hall name t ht s hs
    have htype : typeOf s = name :=
      (typeOf_of_mem_functionSlots hs).trans (Schema.name_of_type? ht)
    cases hget : Entries.get? name resolvers with
    | none =>
      have hnone : given? schema resolvers s = none := by rw [given?, htype, ht, hget]; rfl
      rw [get_addResolvers hkeys hfits, hnone]
      exact hb name t ht s hs
    | some given =>
      have hm := Entries.mem_of_get? hget
      rw [get_addResolvers_of_mem hkeys hfits hm ht (typeOf_of_mem_functionSlots hs)]
      cases hgiven : givenFor t given s with
      | none => exact hb name t ht s hs
      | some value =>
        rcases callable_or_boundAsGiven hs hgiven with hcallable | hbound
        · cases value with
          | function _ => rfl
          | _ => cases hcallable
        · exact hall name given hm t ht value hbound

open Resolver in
/-- Functions under a special key, in a mapping for a field and in a scalar type, beside values that
are absent. -/
theorem addResolversWork_holdsFunctions_allWays :
    let query : NamedType := ⟨"Query", none, .object [] [⟨"now", .named "Date", none, none, []⟩]⟩
    let date : NamedType := ⟨"Date", none, .scalar none⟩
    let schema : Schema := ⟨some "Query", none, none, none, [], [query, date]⟩
    let resolvers : List (String × Value) :=
      [("Query", .mapping [("__is_type_of", .function "isQuery"),
        ("now", .mapping [("resolve", .function "clock"), ("subscribe", .null)])]),
        ("Date", .scalarType "Date" [("serialize", .function "iso"), ("parse_value", .null)])]
    let built := addResolvers schema resolvers Bindings.initial
    (addResolversWork schema resolvers Bindings.initial).outcome.1 = .ok ⟨schema, built⟩ ∧
      HoldsFunctions schema built := by
  intro query date schema resolvers built
  have hkeys : (Value.mapping resolvers).distinctKeys = true := by decide
  have hfits : ∀ e ∈ resolvers, entryFits schema e.1 e.2 = true := by decide
  have hok := outcome_of_fits hfits Bindings.initial
  refine ⟨hok, (addResolversWork_holdsFunctions_iff hkeys (holdsFunctions_initial schema) hok).mpr
    fun name given hm t ht value hvalue => ?_⟩
  simp only [resolvers, List.mem_cons, List.not_mem_nil, or_false, Prod.mk.injEq] at hm
  rcases hm with ⟨rfl, rfl⟩ | ⟨rfl, rfl⟩
  · obtain rfl : query = t := Option.some.inj ht
    cases hvalue with
    | isTypeOf _ hlast =>
      obtain rfl : .function "isQuery" = value := Option.some.inj hlast
      rfl
    | resolveType hk _ => rcases hk with hk | hk <;> cases hk
    | member hf hfield hkey hinner =>
      simp only [Value.entries, Entries.get?] at hfield
      split at hfield
      · cases hfield
      split at hfield
      · obtain rfl := Value.mapping.inj (Option.some.inj hfield)
        rcases hkey with rfl | rfl
        · obtain rfl : .function "clock" = value := Option.some.inj hinner
          rfl
        · obtain rfl : .null = value := Option.some.inj hinner
          rfl
      · cases hfield
    | scalar hk _ _ => cases hk
  · obtain rfl : date = t := Option.some.inj ht
    cases hvalue with
    | isTypeOf hk _ => cases hk
    | resolveType hk _ => rcases hk with hk | hk <;> cases hk
    | member hf hfield _ _ => cases hfield
    | @scalar key hk hkey hfunction =>
      simp only [isScalarKey, Bool.or_eq_true, decide_eq_true_eq] at hkey
      rcases hkey with (rfl | rfl) | rfl
      · obtain rfl : .function "iso" = value := Option.some.inj hfunction
        rfl
      · cases hfunction
      · cases hfunction

open Resolver in
/-- A text is bound to a field that is given in a mapping, although as it is it would be refused. -/
theorem text_boundAsResolver :
    let query : NamedType := ⟨"Query", none, .object [] [⟨"hello", .named "String", none, none, []⟩]⟩
    let schema : Schema := ⟨some "Query", none, none, none, [], [query]⟩
    let resolvers : List (String × Value) :=
      [("Query", .mapping [("hello", .mapping [("resolve", .text "hello")])])]
    HoldsFunctions schema Bindings.initial ∧
    (∃ built, (addResolversWork schema resolvers Bindings.initial).outcome.1 = .ok built ∧
      ¬ HoldsFunctions schema built.bindings) ∧
    (addResolversWork schema [("Query", .mapping [("hello", .text "hello")])]
      Bindings.initial).outcome.1 = .error (.resolver (.notFunction "Query" "hello")) := by
  intro query schema resolvers
  have hfits : ∀ e ∈ resolvers, entryFits schema e.1 e.2 = true := by decide
  refine ⟨holdsFunctions_initial schema, ⟨_, outcome_of_fits hfits _, fun hholds => ?_⟩, ?_⟩
  · have hslot := hholds "Query" query rfl (.resolve "Query" "hello") (by decide)
    exact absurd hslot (by decide)
  · rw [outcome_addResolversWork]
    rfl

end SchemaLoom
