import SchemaLoom.Proofs.Resolvers.Fitting
import SchemaLoom.Proofs.Resolvers.Layers

/-! What a resolver map binds if it fits. Each slot gets what the map gives for it, and where the map
gives nothing the slot keeps what it had. So the order of entries does not matter, and adding a map
again changes nothing. -/

namespace SchemaLoom

namespace Resolver

/-- The last value under keys of some kind. -/
def lastUnder (taken : String → Bool) (entries : List (String × Value)) : Option Value :=
  (entries.filter (taken ·.1)).getLast?.map Prod.snd

/-- What is given for one of the functions of a scalar type. -/
def scalarFunction (key : String) : Value → Option Value
  | .mapping entries => functionAt? key entries
  | .scalarType _ functions => functionAt? key functions
  | _ => none

/-- What the resolvers of a type give for a slot of it. -/
def givenFor (t : NamedType) (value : Value) : Slot → Option Value
  | .isTypeOf _ => if t.kind = .object then lastUnder isTypeOfKey value.entries else none
  | .resolveType _ =>
    if t.kind = .interface ∨ t.kind = .union then lastUnder isResolveTypeKey value.entries
    else none
  | .resolve _ field =>
    if takesField t field then
      (Entries.get? field value.entries).bind (fieldFunction "resolve")
    else none
  | .subscribe _ field =>
    if takesField t field then
      (Entries.get? field value.entries).bind (fieldFunction "subscribe")
    else none
  | .enumValue _ name => if t.kind = .enum then Entries.get? name value.entries else none
  | .serialize _ => if t.kind = .scalar then scalarFunction "serialize" value else none
  | .parseValue _ => if t.kind = .scalar then scalarFunction "parse_value" value else none
  | .parseLiteral _ => if t.kind = .scalar then scalarFunction "parse_literal" value else none

/-- What a resolver map gives for a slot. -/
def given? (schema : Schema) (resolvers : List (String × Value)) (s : Slot) : Option Value :=
  (schema.type? (typeOf s)).bind fun t =>
    (Entries.get? (typeOf s) resolvers).bind fun value => givenFor t value s

/-! ### Under the name of a type -/

section OfType

variable {t : NamedType} {entries : List (String × Value)} {s : Slot}

/-- A slot that is filled from one key only gets what the entry under that key gives for it. -/
theorem lastFor_entriesPart_at (hfine : (entriesPart (entryOf t) entries).fault = none)
    (hnd : (Entries.keys entries).Nodup) (hs : typeOf s = t.name) (key : String)
    (hothers : ∀ k value, k ≠ key → entryGives t k value s = none) :
    lastFor s (entriesPart (entryOf t) entries).assignments =
      (Entries.get? key entries).bind fun value => entryGives t key value s := by
  rw [assignments_entriesPart hfine, lastFor_flatMap hnd _ key fun k value hm hk =>
    (lastFor_planned hfine hs hm).trans (hothers k value hk)]
  cases hg : Entries.get? key entries with
  | none => rfl
  | some value => exact lastFor_planned hfine hs (Entries.mem_of_get? hg)

/-- A slot that is filled from keys of some kind gets the last value under one of them. -/
theorem lastFor_entriesPart_under (hfine : (entriesPart (entryOf t) entries).fault = none)
    (hs : typeOf s = t.name) (taken : String → Bool)
    (hgives : ∀ key value, entryGives t key value s = if taken key then some value else none) :
    lastFor s (entriesPart (entryOf t) entries).assignments = lastUnder taken entries := by
  have hplanned : ∀ e ∈ entries,
      lastFor s (planned (entryOf t) e.1 e.2) = if taken e.1 then some e.2 else none :=
    fun e he => (lastFor_planned hfine hs he).trans (hgives e.1 e.2)
  rw [assignments_entriesPart hfine, lastUnder]
  clear hfine
  induction entries with
  | nil => rfl
  | cons e rest ih =>
    have hrest := ih fun e' he' => hplanned e' (List.mem_cons_of_mem _ he')
    rw [List.flatMap_cons, lastFor_append, hrest, hplanned e (List.mem_cons_self ..)]
    by_cases ht : taken e.1 = true
    · rw [List.filter_cons_of_pos (by exact ht), List.getLast?_cons, if_pos ht]
      cases (rest.filter (taken ·.1)).getLast? <;> rfl
    · rw [List.filter_cons_of_neg (by exact ht), if_neg ht, Option.or_none]

theorem lastFor_entriesPart_given (ht : TakesEntries t)
    (hfine : (entriesPart (entryOf t) entries).fault = none) (hnd : (Entries.keys entries).Nodup)
    (hs : typeOf s = t.name) :
    lastFor s (entriesPart (entryOf t) entries).assignments =
      givenFor t (.mapping entries) s := by
  have hat := lastFor_entriesPart_at hfine hnd hs
  have hunder := lastFor_entriesPart_under hfine hs
  cases s with
  | isTypeOf type =>
    obtain rfl : type = t.name := hs
    by_cases hk : t.kind = .object
    · rw [hunder isTypeOfKey fun _ _ => by simp [entryGives, hk], givenFor, if_pos hk]
      rfl
    · rw [hat "" fun _ _ _ => by simp [entryGives, hk], givenFor, if_neg hk]
      simp [entryGives, hk]
  | resolveType type =>
    obtain rfl : type = t.name := hs
    by_cases hk : t.kind = .interface ∨ t.kind = .union
    · rw [hunder isResolveTypeKey fun _ _ => by simp [entryGives, hk], givenFor, if_pos hk]
      rfl
    · rw [hat "" fun _ _ _ => by simp [entryGives, hk], givenFor, if_neg hk]
      simp [entryGives, hk]
  | resolve type field =>
    rw [hat field fun _ _ hne => by simp [entryGives, hne.symm]]
    by_cases hf : takesField t field = true <;> simp [entryGives, givenFor, Value.entries, hf]
  | subscribe type field =>
    rw [hat field fun _ _ hne => by simp [entryGives, hne.symm]]
    by_cases hf : takesField t field = true <;> simp [entryGives, givenFor, Value.entries, hf]
  | enumValue type name =>
    rw [hat name fun _ _ hne => by simp [entryGives, hne]]
    by_cases hk : t.kind = .enum <;> simp [entryGives, givenFor, Value.entries, hk]
  | _ =>
    rw [hat "" fun _ _ _ => rfl]
    simp [entryGives, givenFor, ht.1]

theorem lastFor_scalarPart_given (ht : t.kind = .scalar) (hs : typeOf s = t.name) {value : Value}
    (hfits : value.isMapping = true ∨ ∃ name functions, value = .scalarType name functions) :
    lastFor s (scalarPart t.name value).assignments = givenFor t value s := by
  have hgiven : ∃ given, (scalarPart t.name value).assignments = scalarAssignments t.name given ∧
      ∀ key, scalarFunction key value = functionAt? key given := by
    cases value with
    | mapping entries => exact ⟨entries, rfl, fun _ => rfl⟩
    | scalarType _ functions => exact ⟨functions, rfl, fun _ => rfl⟩
    | _ => simp [Value.isMapping] at hfits
  obtain ⟨given, hassignments, hfunctions⟩ := hgiven
  rw [hassignments, lastFor_scalarAssignments]
  cases s <;> simp_all [givenFor, typeOf, takesField]

variable {schema : Schema} {name : Name} {value : Value}

theorem lastFor_typePart_given (ht : schema.type? (typeOf s) = some t)
    (hfits : entryFits schema (typeOf s) value = true) (hnd : (Entries.keys value.entries).Nodup) :
    lastFor s (typePart schema (typeOf s) value).assignments = givenFor t value s := by
  have hs := (Schema.name_of_type? ht).symm
  have hfine := fault_typePart_eq_none_iff_fits.mpr hfits
  simp only [typePart, ht] at hfine ⊢
  by_cases hk : t.kind = .scalar
  · rw [if_pos hk] at hfine ⊢
    refine lastFor_scalarPart_given hk hs ?_
    cases value with
    | mapping _ => exact .inl rfl
    | scalarType _ _ => exact .inr ⟨_, _, rfl⟩
    | _ => simp [scalarPart] at hfine
  rw [if_neg hk] at hfine ⊢
  cases value with
  | mapping entries =>
    rcases compositePart_mapping t entries with ⟨-, hp⟩ | ⟨hi, hp⟩
    · simp [hp] at hfine
    · rw [hp hk] at hfine ⊢
      exact lastFor_entriesPart_given ⟨hk, hi⟩ hfine hnd hs
  | _ => simp [compositePart] at hfine

end OfType

/-! ### Maps -/

section Map

variable {schema : Schema} {resolvers others : List (String × Value)}

/-- A map that fits plans for a slot what it gives for it. -/
theorem lastFor_plan_given (hnd : (Entries.keys resolvers).Nodup)
    (hfits : ∀ e ∈ resolvers, entryFits schema e.1 e.2 = true) {s : Slot}
    (hbelow : ∀ value ∈ Entries.get? (typeOf s) resolvers, (Entries.keys value.entries).Nodup) :
    lastFor s (plan schema resolvers).assignments = given? schema resolvers s := by
  have hother : ∀ name value, (name, value) ∈ resolvers → name ≠ typeOf s →
      lastFor s (typePart schema name value).assignments = none := by
    intro name value _ hne
    refine lastFor_eq_none fun a ha has => hne ?_
    rw [← typeOf_of_mem_typePart ha, has]
  rw [assignments_plan (fault_plan_eq_none_iff_fits.mpr hfits),
    lastFor_flatMap hnd (fun name value => (typePart schema name value).assignments) _ hother,
    given?]
  cases hg : Entries.get? (typeOf s) resolvers with
  | none => simp
  | some value =>
    have hvalue := hfits (typeOf s, value) (Entries.mem_of_get? hg)
    cases ht : schema.type? (typeOf s) with
    | none => simp [entryFits, ht] at hvalue
    | some t => exact lastFor_typePart_given ht hvalue (hbelow value hg)

theorem get_addResolvers (hkeys : (Value.mapping resolvers).distinctKeys = true)
    (hfits : ∀ e ∈ resolvers, entryFits schema e.1 e.2 = true) (b : Bindings) (s : Slot) :
    (addResolvers schema resolvers b).get s = (given? schema resolvers s).getD (b.get s) := by
  obtain ⟨hnd, hbelow⟩ := Value.distinctKeys_mapping.mp hkeys
  rw [addResolvers, get_bindAll, lastFor_plan_given hnd hfits fun value hg =>
    Value.nodup_keys_entries (hbelow _ (Entries.mem_of_get? hg))]

end Map

/-! ### The order of entries -/

/-- The same resolvers of a type, with the entries in another order. Under the spellings of one
special key the order is the same. -/
inductive SameResolvers : Value → Value → Prop where
  | refl (value : Value) : SameResolvers value value
  | mapping {entries others : List (String × Value)} : entries.Perm others →
    (∀ spelled ∈ [isTypeOfKey, isResolveTypeKey],
      entries.filter (spelled ·.1) = others.filter (spelled ·.1)) →
    SameResolvers (.mapping entries) (.mapping others)

/-- The same resolver map, with the entries in another order on either level. -/
def Reordered (resolvers others : List (String × Value)) : Prop :=
  ∃ between, resolvers.Perm between ∧
    List.Forall₂ (fun e e' => e.1 = e'.1 ∧ SameResolvers e.2 e'.2) between others

section Order

variable {value other : Value} {entries between others : List (String × Value)}

theorem get?_perm (h : (Entries.keys entries).Nodup) (hp : entries.Perm others) (key : String) :
    Entries.get? key entries = Entries.get? key others := by
  have hnd : (Entries.keys others).Nodup := (hp.map Prod.fst).nodup_iff.mp h
  refine Option.ext fun value => ⟨fun hg => ?_, fun hg => ?_⟩
  · exact Entries.get?_of_mem hnd (hp.mem_iff.mp (Entries.mem_of_get? hg))
  · exact Entries.get?_of_mem h (hp.mem_iff.mpr (Entries.mem_of_get? hg))

theorem SameResolvers.entryFits_eq (h : SameResolvers value other) (schema : Schema)
    (name : Name) : entryFits schema name value = entryFits schema name other := by
  cases h with
  | refl => rfl
  | mapping hp =>
    simp only [entryFits]
    cases schema.type? name with
    | none => rfl
    | some t => simp only [hp.all_eq]

theorem SameResolvers.distinctKeys (h : SameResolvers value other)
    (hd : value.distinctKeys = true) : other.distinctKeys = true := by
  cases h with
  | refl => exact hd
  | mapping hp =>
    obtain ⟨hnd, hbelow⟩ := Value.distinctKeys_mapping.mp hd
    exact Value.distinctKeys_mapping.mpr ⟨(hp.map Prod.fst).nodup_iff.mp hnd,
      fun e he => hbelow e (hp.mem_iff.mpr he)⟩

theorem SameResolvers.givenFor_eq (h : SameResolvers value other)
    (hnd : (Entries.keys value.entries).Nodup) (t : NamedType) (s : Slot) :
    givenFor t value s = givenFor t other s := by
  cases h with
  | refl => rfl
  | @mapping entries others hp hspecial =>
    have hget : ∀ key, Entries.get? key entries = Entries.get? key others := get?_perm hnd hp
    have hlast : ∀ spelled ∈ [isTypeOfKey, isResolveTypeKey],
        lastUnder spelled entries = lastUnder spelled others :=
      fun spelled hm => by rw [lastUnder, lastUnder, hspecial spelled hm]
    have hfunction : ∀ key, functionAt? key entries = functionAt? key others :=
      fun key => by rw [functionAt?, functionAt?, hget]
    cases s <;> simp_all [givenFor, Value.entries, scalarFunction]

theorem get?_forall₂ (h : List.Forall₂ (fun e e' => e.1 = e'.1 ∧ SameResolvers e.2 e'.2)
    between others) (key : String) :
    (Entries.get? key between = none ∧ Entries.get? key others = none) ∨
      ∃ value other, Entries.get? key between = some value ∧
        Entries.get? key others = some other ∧ SameResolvers value other := by
  induction h with
  | nil => exact .inl ⟨rfl, rfl⟩
  | @cons e e' between others he _ ih =>
    by_cases hk : e.1 = key
    · exact .inr ⟨e.2, e'.2, by simp [Entries.get?, hk], by simp [Entries.get?, ← he.1, hk], he.2⟩
    · simpa [Entries.get?, ← he.1, hk] using ih

theorem Reordered.exists_of_mem (h : Reordered entries others) {e' : String × Value}
    (he : e' ∈ others) : ∃ e ∈ entries, e.1 = e'.1 ∧ SameResolvers e.2 e'.2 := by
  obtain ⟨between, hp, hsame⟩ := h
  suffices hbetween : ∃ e ∈ between, e.1 = e'.1 ∧ SameResolvers e.2 e'.2 by
    obtain ⟨e, hm, h⟩ := hbetween
    exact ⟨e, hp.mem_iff.mpr hm, h⟩
  clear hp
  induction hsame with
  | nil => cases he
  | cons hfirst _ ih =>
    rcases List.mem_cons.mp he with rfl | he
    · exact ⟨_, List.mem_cons_self .., hfirst⟩
    · obtain ⟨e, hm, h⟩ := ih he
      exact ⟨e, List.mem_cons_of_mem _ hm, h⟩

theorem Reordered.distinctKeys (h : Reordered entries others)
    (hd : (Value.mapping entries).distinctKeys = true) :
    (Value.mapping others).distinctKeys = true := by
  obtain ⟨hnd, hbelow⟩ := Value.distinctKeys_mapping.mp hd
  refine Value.distinctKeys_mapping.mpr ⟨?_, fun e' he => ?_⟩
  · obtain ⟨between, hp, hsame⟩ := h
    have hkeys : Entries.keys between = Entries.keys others := by
      clear hp
      induction hsame with
      | nil => rfl
      | cons hfirst _ ih => rw [Entries.keys_cons, Entries.keys_cons, hfirst.1, ih]
    exact hkeys ▸ (hp.map Prod.fst).nodup_iff.mp hnd
  · obtain ⟨e, hm, -, hsame⟩ := h.exists_of_mem he
    exact hsame.distinctKeys (hbelow e hm)

theorem Reordered.given?_eq (h : Reordered entries others)
    (hd : (Value.mapping entries).distinctKeys = true) (schema : Schema) (s : Slot) :
    given? schema entries s = given? schema others s := by
  obtain ⟨between, hp, hsame⟩ := h
  obtain ⟨hnd, hbelow⟩ := Value.distinctKeys_mapping.mp hd
  rw [given?, given?, get?_perm hnd hp]
  rcases get?_forall₂ hsame (typeOf s) with ⟨hnone, hnone'⟩ | ⟨value, other, hvalue, hother, hsame⟩
  · rw [hnone, hnone']
  · have hm := hp.mem_iff.mpr (Entries.mem_of_get? hvalue)
    have hvalues := hsame.givenFor_eq (Value.nodup_keys_entries (hbelow _ hm))
    simp [hvalue, hother, hvalues]

theorem Reordered.fits (h : Reordered entries others) {schema : Schema}
    (hfits : ∀ e ∈ entries, entryFits schema e.1 e.2 = true) :
    ∀ e ∈ others, entryFits schema e.1 e.2 = true := by
  intro e' he
  obtain ⟨e, hm, hname, hsame⟩ := h.exists_of_mem he
  rw [← hsame.entryFits_eq, ← hname]
  exact hfits e hm

end Order

end Resolver

open Resolver in
/-- After a map was added that fits, every slot has what the map gives for it, and what it had where
the map gives nothing. The schema is the same. Another order of the entries comes to the same, and so
does the map added twice. -/
theorem addResolversWork_binds {schema : Schema} {resolvers : List (String × Value)} {b : Bindings}
    {built : ExecutableSchema} (hkeys : (Value.mapping resolvers).distinctKeys = true)
    (h : (addResolversWork schema resolvers b).outcome.1 = .ok built) :
    built.schema = schema ∧
    (∀ s, built.bindings.get s = (given? schema resolvers s).getD (b.get s)) ∧
    (∀ others, Reordered resolvers others →
      (addResolversWork schema others b).outcome.1 = .ok built) ∧
    (addResolversWork schema resolvers built.bindings).outcome.1 = .ok built := by
  obtain ⟨hfits, rfl⟩ := fits_of_ok h
  -- Bindings are told by their slots, and what a map gives for a slot depends neither on the order
  -- of the entries nor on what is bound already.
  refine ⟨rfl, get_addResolvers hkeys hfits b, fun others hsame => ?_, ?_⟩
  · rw [outcome_of_fits (hsame.fits hfits)]
    congr 2
    ext s
    rw [get_addResolvers (hsame.distinctKeys hkeys) (hsame.fits hfits),
      get_addResolvers hkeys hfits, hsame.given?_eq hkeys]
  · rw [outcome_of_fits hfits]
    congr 2
    ext s
    rw [get_addResolvers hkeys hfits, get_addResolvers hkeys hfits]
    cases given? schema resolvers s <;> rfl

open Resolver in
/-- Both spellings of one special key, and a mapping that has only one of the functions of a field
which has the other already. -/
theorem addResolversWork_binds_besideOthers :
    let query : NamedType := ⟨"Query", none, .object [] [⟨"now", .named "Date", none, none, []⟩]⟩
    let date : NamedType := ⟨"Date", none, .scalar none⟩
    let schema : Schema := ⟨some "Query", none, none, none, [], [query, date]⟩
    let resolvers : List (String × Value) :=
      [("Query", .mapping [("__isTypeOf", .function "isQuery"),
        ("now", .mapping [("subscribe", .function "ticks")]),
        ("__is_type_of", .function "is_query")]),
        ("Date", .mapping [("parse_value", .null), ("serialize", .function "iso")])]
    let b := Bindings.initial.bind (.resolve "Query" "now") (.function "clock")
    ∃ built, (addResolversWork schema resolvers b).outcome.1 = .ok built ∧
      built.bindings.get (.isTypeOf "Query") = .function "is_query" ∧
      built.bindings.get (.resolve "Query" "now") = .function "clock" ∧
      built.bindings.get (.subscribe "Query" "now") = .function "ticks" ∧
      built.bindings.get (.parseValue "Date") = .null := by
  intro query date schema resolvers b
  have hkeys : (Value.mapping resolvers).distinctKeys = true := by decide
  have hfits : ∀ e ∈ resolvers, entryFits schema e.1 e.2 = true := by decide
  obtain ⟨-, hslots, -⟩ := addResolversWork_binds hkeys (outcome_of_fits hfits b)
  refine ⟨_, outcome_of_fits hfits b, ?_, ?_, ?_, ?_⟩
  · exact (hslots (.isTypeOf "Query")).trans rfl
  · exact (hslots (.resolve "Query" "now")).trans rfl
  · exact (hslots (.subscribe "Query" "now")).trans rfl
  · exact (hslots (.parseValue "Date")).trans rfl

end SchemaLoom
