import SchemaLoom.Proofs.Resolvers.Functions

/-! Functions that a resolver map holds, and whether they are bound. A key that is not known is
refused wherever a type has entries, but not in a mapping for a field, where functions may get lost.
-/

namespace SchemaLoom

namespace Resolver

/-- A value that stands where functions are given for a type, with the slots one of which is to hold
it: those of the field that it is given for, or those of the type itself. -/
inductive GivenAsFunction (t : NamedType) (given value : Value) : List Slot → Prop where
  | special {key : String} : t.kind = .object ∨ t.kind = .interface ∨ t.kind = .union →
    isSpecialKey key = true → (key, value) ∈ given.entries →
    GivenAsFunction t given value [.isTypeOf t.name, .resolveType t.name]
  | field {field : Name} : takesField t field = true → (field, value) ∈ given.entries →
    GivenAsFunction t given value (fieldSlots t.name field)
  | member {field : Name} {inner : List (String × Value)} {key : String} :
    takesField t field = true → (field, .mapping inner) ∈ given.entries →
    (key, value) ∈ inner → GivenAsFunction t given value (fieldSlots t.name field)
  | scalarEntry {key : String} : t.kind = .scalar → (key, value) ∈ given.entries →
    GivenAsFunction t given value (functionSlots t)
  | scalarType {name key : String} {functions : List (String × Value)} : t.kind = .scalar →
    given = .scalarType name functions → isScalarKey key = true →
    Entries.get? key functions = some value → GivenAsFunction t given value (functionSlots t)

/-- Every function that a resolver map gives is bound where it is given for. -/
def KeepsFunctions (schema : Schema) (resolvers : List (String × Value)) (b : Bindings) : Prop :=
  ∀ name given, (name, given) ∈ resolvers → ∀ t ∈ schema.type? name, ∀ value slots,
    value.isCallable = true → GivenAsFunction t given value slots → ∃ s ∈ slots, b.get s = value

/-- No type is given both spellings of one special key. -/
def OneSpelling (resolvers : List (String × Value)) : Prop :=
  ∀ e ∈ resolvers, ∀ spelled ∈ [isTypeOfKey, isResolveTypeKey],
    ∀ own ∈ e.2.entries, ∀ other ∈ e.2.entries,
      spelled own.1 = true → spelled other.1 = true → own.1 = other.1

instance (resolvers : List (String × Value)) : Decidable (OneSpelling resolvers) :=
  inferInstanceAs (Decidable (∀ e ∈ resolvers, _))

section Entry

variable {schema : Schema} {resolvers : List (String × Value)} {name : Name} {t : NamedType}
  {given : Value} {key : String} {value : Value} {field : Name} {inner : List (String × Value)}

theorem exists_special_slot (ht : schema.type? name = some t)
    (hfits : entryFits schema name given = true)
    (hk : t.kind = .object ∨ t.kind = .interface ∨ t.kind = .union)
    (hkey : isSpecialKey key = true) (hm : (key, value) ∈ given.entries) :
    (isTypeOfKey key = true ∧
      givenFor t given (.isTypeOf t.name) = lastUnder isTypeOfKey given.entries) ∨
    (isResolveTypeKey key = true ∧
      givenFor t given (.resolveType t.name) = lastUnder isResolveTypeKey given.entries) := by
  have hfit := keyFits_of_mem ht hfits hm
  have hspecial : isResolveTypeKey key = true ∨ isTypeOfKey key = true := by
    simpa [isSpecialKey] using hkey
  rcases hk with hk | hk | hk
  · have hi : isTypeOfKey key = true := by
      rw [keyFits_member (.inl hk)] at hfit
      rcases hspecial with hr | hi
      · simp [hr, hk] at hfit
      · exact hi
    exact .inl ⟨hi, by rw [givenFor, if_pos hk]⟩
  · have hr : isResolveTypeKey key = true := by
      rw [keyFits_member (.inr hk)] at hfit
      rcases hspecial with hr | hi
      · exact hr
      · by_contra hno
        simp [hno, hi, hk] at hfit
    exact .inr ⟨hr, by rw [givenFor, if_pos (.inl hk)]⟩
  · have hr : isResolveTypeKey key = true := by
      obtain ⟨own, description, shape⟩ := t
      cases shape with
      | union _ => exact hfit
      | _ => cases hk
    exact .inr ⟨hr, by rw [givenFor, if_pos (.inr hk)]⟩

theorem lastUnder_of_mem {entries : List (String × Value)} {taken : String → Bool}
    (hnd : (Entries.keys entries).Nodup) (hm : (key, value) ∈ entries) (hkey : taken key = true)
    (hone : ∀ own ∈ entries, ∀ other ∈ entries, taken own.1 = true → taken other.1 = true →
      own.1 = other.1) : lastUnder taken entries = some value := by
  rw [lastUnder_eq_get? hnd hkey fun e he htaken => hone e he (key, value) hm htaken hkey]
  exact Entries.get?_of_mem hnd hm

theorem functionAt?_of_callable {key : String} {value : Value} {entries : List (String × Value)}
    (h : Entries.get? key entries = some value) (hcallable : value.isCallable = true) :
    functionAt? key entries = some value := by
  rw [functionAt?, h]
  cases value with
  | function _ => rfl
  | _ => cases hcallable

variable (hkeys : (Value.mapping resolvers).distinctKeys = true)
  (hfits : ∀ e ∈ resolvers, entryFits schema e.1 e.2 = true) (hm : (name, given) ∈ resolvers)
  (ht : schema.type? name = some t) (b : Bindings)
include hkeys hfits hm ht

theorem get_addResolvers_of_mapping (hf : takesField t field = true)
    (hfield : (field, .mapping inner) ∈ given.entries) :
    (addResolvers schema resolvers b).get (.resolve t.name field) =
        (Entries.get? "resolve" inner).getD (b.get (.resolve t.name field)) ∧
      (addResolvers schema resolvers b).get (.subscribe t.name field) =
        (Entries.get? "subscribe" inner).getD (b.get (.subscribe t.name field)) := by
  have hnd := Value.nodup_keys_entries (Value.distinctKeys_of_mem hkeys hm)
  have hget := Entries.get?_of_mem hnd hfield
  have hslot := fun s hs => get_addResolvers_of_mem (s := s) hkeys hfits hm ht hs b
  constructor
  · rw [hslot (.resolve t.name field) rfl, givenFor, if_pos hf, hget]
    rfl
  · rw [hslot (.subscribe t.name field) rfl, givenFor, if_pos hf, hget]
    rfl

theorem get_addResolvers_of_function (hf : takesField t field = true)
    (hfield : (field, value) ∈ given.entries) (hcallable : value.isCallable = true) :
    (addResolvers schema resolvers b).get (.resolve t.name field) = value := by
  have hnd := Value.nodup_keys_entries (Value.distinctKeys_of_mem hkeys hm)
  have hget := Entries.get?_of_mem hnd hfield
  rw [get_addResolvers_of_mem hkeys hfits hm ht rfl, givenFor, if_pos hf, hget]
  cases value with
  | function _ => rfl
  | _ => cases hcallable

/-- What comes under a special key is bound if no other spelling of it comes up. -/
theorem exists_special_bound (hone : OneSpelling resolvers)
    (hk : t.kind = .object ∨ t.kind = .interface ∨ t.kind = .union)
    (hkey : isSpecialKey key = true) (hvalue : (key, value) ∈ given.entries) :
    ∃ s ∈ [Slot.isTypeOf t.name, .resolveType t.name],
      (addResolvers schema resolvers b).get s = value := by
  have hnd := Value.nodup_keys_entries (Value.distinctKeys_of_mem hkeys hm)
  have hspelled := hone _ hm
  rcases exists_special_slot ht (hfits _ hm) hk hkey hvalue with ⟨hi, hslot⟩ | ⟨hr, hslot⟩
  · refine ⟨.isTypeOf t.name, by simp, ?_⟩
    rw [get_addResolvers_of_mem hkeys hfits hm ht rfl, hslot,
      lastUnder_of_mem hnd hvalue hi (hspelled _ (by simp))]
    rfl
  · refine ⟨.resolveType t.name, by simp, ?_⟩
    rw [get_addResolvers_of_mem hkeys hfits hm ht rfl, hslot,
      lastUnder_of_mem hnd hvalue hr (hspelled _ (by simp))]
    rfl

theorem exists_scalar_slot (hk : t.kind = .scalar) (hkey : isScalarKey key = true)
    (hgiven : scalarFunction key given = some value) :
    ∃ s ∈ functionSlots t, (addResolvers schema resolvers b).get s = value := by
  obtain ⟨s, hs, hslot⟩ := givenFor_scalarSlot hk hkey given
  refine ⟨s, hs, ?_⟩
  rw [get_addResolvers_of_mem hkeys hfits hm ht (typeOf_of_mem_functionSlots hs), hslot, hgiven]
  rfl

/-- A scalar's mapping fits only if it has no other keys than those of the three slots. -/
theorem exists_scalar_bound (hk : t.kind = .scalar) (hvalue : (key, value) ∈ given.entries)
    (hcallable : value.isCallable = true) :
    ∃ s ∈ functionSlots t, (addResolvers schema resolvers b).get s = value := by
  have hkey : isScalarKey key = true := by
    have hfit := keyFits_of_mem ht (hfits _ hm) hvalue
    obtain ⟨own, description, shape⟩ := t
    cases shape with
    | scalar => exact hfit
    | _ => cases hk
  have hnd := Value.nodup_keys_entries (Value.distinctKeys_of_mem hkeys hm)
  have hfunction := functionAt?_of_callable (Entries.get?_of_mem hnd hvalue) hcallable
  refine exists_scalar_slot hkeys hfits hm ht b hk hkey ?_
  cases given with
  | mapping entries => exact hfunction
  | _ => cases hvalue

end Entry

end Resolver

open Resolver in
/-- After a map was added that fits, every function of it is bound if and only if no function is
lost in a mapping for a field: what such a mapping has under a key other than those of the two slots
is not bound, unless the field comes to have it in one of the slots anyway. -/
theorem addResolversWork_keepsFunctions_iff {schema : Schema} {resolvers : List (String × Value)}
    {b : Bindings} {built : ExecutableSchema}
    (hkeys : (Value.mapping resolvers).distinctKeys = true) (hone : OneSpelling resolvers)
    (h : (addResolversWork schema resolvers b).outcome.1 = .ok built) :
    KeepsFunctions schema resolvers built.bindings ↔
      ∀ name given, (name, given) ∈ resolvers → ∀ t ∈ schema.type? name,
        ∀ field inner, takesField t field = true → (field, .mapping inner) ∈ given.entries →
          ∀ key value, (key, value) ∈ inner → value.isCallable = true →
            key ≠ "resolve" → key ≠ "subscribe" →
            (Entries.get? "resolve" inner).getD (b.get (.resolve t.name field)) = value ∨
              (Entries.get? "subscribe" inner).getD (b.get (.subscribe t.name field)) = value := by
  obtain ⟨hfits, rfl⟩ := fits_of_ok h
  constructor
  · intro hkeeps name given hm t ht field inner hf hfield key value hvalue hcallable _ _
    obtain ⟨hresolve, hsubscribe⟩ := get_addResolvers_of_mapping hkeys hfits hm ht b hf hfield
    obtain ⟨s, hs, hslot⟩ :=
      hkeeps name given hm t ht value _ hcallable (.member hf hfield hvalue)
    simp only [fieldSlots, List.mem_cons, List.not_mem_nil, or_false] at hs
    rcases hs with rfl | rfl
    · exact .inl (hresolve.symm.trans hslot)
    · exact .inr (hsubscribe.symm.trans hslot)
  · intro hstray name given hm t ht value slots hcallable hgiven
    cases hgiven with
    | special hk hkey hvalue =>
      exact exists_special_bound hkeys hfits hm ht b hone hk hkey hvalue
    | @field field hf hvalue =>
      exact ⟨.resolve t.name field, by simp [fieldSlots],
        get_addResolvers_of_function hkeys hfits hm ht b hf hvalue hcallable⟩
    | @member field inner key hf hfield hvalue =>
      have hinner : (Entries.keys inner).Nodup := Value.nodup_keys_entries
        (Value.distinctKeys_of_mem (Value.distinctKeys_of_mem hkeys hm) hfield)
      obtain ⟨hresolve, hsubscribe⟩ := get_addResolvers_of_mapping hkeys hfits hm ht b hf hfield
      have hget := Entries.get?_of_mem hinner hvalue
      suffices hslot : (Entries.get? "resolve" inner).getD (b.get (.resolve t.name field)) = value ∨
          (Entries.get? "subscribe" inner).getD (b.get (.subscribe t.name field)) = value by
        rcases hslot with hslot | hslot
        · exact ⟨.resolve t.name field, by simp [fieldSlots], hresolve.trans hslot⟩
        · exact ⟨.subscribe t.name field, by simp [fieldSlots], hsubscribe.trans hslot⟩
      -- A key other than the two has to be made up for by what the slots hold.
      by_cases hr : key = "resolve"
      · exact .inl (by rw [← hr, hget]; rfl)
      by_cases hs : key = "subscribe"
      · exact .inr (by rw [← hs, hget]; rfl)
      exact hstray name given hm t ht field inner hf hfield key value hvalue hcallable hr hs
    | scalarEntry hk hvalue => exact exists_scalar_bound hkeys hfits hm ht b hk hvalue hcallable
    | scalarType hk heq hkey hvalue =>
      subst heq
      exact exists_scalar_slot hkeys hfits hm ht b hk hkey
        (functionAt?_of_callable hvalue hcallable)

open Resolver in
/-- A function under an unknown key is not lost if the field has it in a slot already, or is given
it for a slot as well. -/
theorem addResolversWork_keepsFunctions_twice :
    let query : NamedType := ⟨"Query", none, .object [] [⟨"now", .named "Date", none, none, []⟩]⟩
    let date : NamedType := ⟨"Date", none, .scalar none⟩
    let schema : Schema := ⟨some "Query", none, none, none, [], [query, date]⟩
    let resolvers : List (String × Value) :=
      [("Query", .mapping [("__isTypeOf", .function "isQuery"),
        ("now", .mapping [("resolver", .function "clock"), ("subscriber", .function "ticks"),
          ("subscribe", .function "ticks")])]),
        ("Date", .mapping [("parse_value", .null), ("serialize", .function "iso")])]
    let b := Bindings.initial.bind (.resolve "Query" "now") (.function "clock")
    let built := addResolvers schema resolvers b
    (addResolversWork schema resolvers b).outcome.1 = .ok ⟨schema, built⟩ ∧
      KeepsFunctions schema resolvers built := by
  intro query date schema resolvers b built
  have hkeys : (Value.mapping resolvers).distinctKeys = true := by decide
  have hone : OneSpelling resolvers := by decide
  have hfits : ∀ e ∈ resolvers, entryFits schema e.1 e.2 = true := by decide
  have hok := outcome_of_fits hfits b
  refine ⟨hok, (addResolversWork_keepsFunctions_iff hkeys hone hok).mpr ?_⟩
  intro name given hm t ht field inner hf hfield key value hvalue _ _ _
  simp only [resolvers, List.mem_cons, List.not_mem_nil, or_false, Prod.mk.injEq] at hm
  rcases hm with ⟨rfl, rfl⟩ | ⟨rfl, rfl⟩
  · obtain rfl : query = t := Option.some.inj ht
    simp only [Value.entries, List.mem_cons, List.not_mem_nil, or_false, Prod.mk.injEq,
      reduceCtorEq, and_false, false_or, Value.mapping.injEq] at hfield
    obtain ⟨rfl, rfl⟩ := hfield
    simp only [List.mem_cons, List.not_mem_nil, or_false, Prod.mk.injEq] at hvalue
    rcases hvalue with ⟨-, rfl⟩ | ⟨-, rfl⟩ | ⟨-, rfl⟩
    · exact .inl rfl
    · exact .inr rfl
    · exact .inr rfl
  · obtain rfl : date = t := Option.some.inj ht
    cases hf

open Resolver in
/-- A misspelt key in a mapping for a field is taken without notice, and its function is lost. -/
theorem function_lostUnderUnknownKey :
    let query : NamedType := ⟨"Query", none, .object [] [⟨"hello", .named "String", none, none, []⟩]⟩
    let schema : Schema := ⟨some "Query", none, none, none, [], [query]⟩
    let resolvers : List (String × Value) :=
      [("Query", .mapping [("hello", .mapping [("resolver", .function "hello")])])]
    OneSpelling resolvers ∧
    ∃ built, (addResolversWork schema resolvers Bindings.initial).outcome.1 = .ok built ∧
      (∀ s ∈ fieldSlots "Query" "hello", built.bindings.get s = .null) ∧
      ¬ KeepsFunctions schema resolvers built.bindings := by
  intro query schema resolvers
  have hone : OneSpelling resolvers := by decide
  have hfits : ∀ e ∈ resolvers, entryFits schema e.1 e.2 = true := by decide
  have hnull : ∀ s ∈ fieldSlots "Query" "hello",
      (addResolvers schema resolvers Bindings.initial).get s = .null := by
    intro s hs
    simp only [fieldSlots, List.mem_cons, List.not_mem_nil, or_false] at hs
    rcases hs with rfl | rfl <;> rfl
  refine ⟨hone, _, outcome_of_fits hfits _, hnull, fun hkeeps => ?_⟩
  have hgiven : GivenAsFunction query resolvers[0].2 (.function "hello")
      (fieldSlots "Query" "hello") :=
    .member rfl (List.mem_cons_self ..) (List.mem_cons_self ..)
  obtain ⟨s, hs, hslot⟩ :=
    hkeeps "Query" _ (List.mem_cons_self ..) query rfl _ _ rfl hgiven
  rw [hnull s hs] at hslot
  cases hslot

end SchemaLoom
