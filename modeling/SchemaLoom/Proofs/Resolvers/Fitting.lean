import SchemaLoom.Proofs.Resolvers.Slots
import SchemaLoom.Proofs.Results

/-! Which entries of a resolver map fit a schema. A map is refused exactly if one of its entries does
not fit, and then the fault is about the first one that does not. -/

namespace SchemaLoom

namespace ResolverFault

/-- The type that a fault is about. -/
def type : ResolverFault → Name
  | .unknownType type => type
  | .scalarForm type => type
  | .scalarKeys type _ => type
  | .notMapping type => type
  | .unresolvable type => type
  | .notAbstract type _ => type
  | .notObject type _ => type
  | .unknownField type _ => type
  | .notFunction type _ => type
  | .unionKey type _ => type
  | .unknownValue type _ => type

/-- The keys that a fault is about. If it is about the entry of a type as a whole, there are none. -/
def keys : ResolverFault → List String
  | .unknownType _ => []
  | .scalarForm _ => []
  | .scalarKeys _ keys => keys
  | .notMapping _ => []
  | .unresolvable _ => []
  | .notAbstract _ key => [key]
  | .notObject _ key => [key]
  | .unknownField _ field => [field]
  | .notFunction _ field => [field]
  | .unionKey _ key => [key]
  | .unknownValue _ value => [value]

end ResolverFault

namespace Resolver

/-- Whether a value fits under a key of a type. Special keys take precedence over fields. -/
def keyFits (t : NamedType) (key : String) (value : Value) : Bool :=
  match t.shape with
  | .scalar _ => isScalarKey key
  | .object _ fields => isTypeOfKey key || (!isResolveTypeKey key && fields.any (·.name = key)
      && (value.isMapping || value.isCallable))
  | .interface _ fields => isResolveTypeKey key || (!isTypeOfKey key && fields.any (·.name = key)
      && (value.isMapping || value.isCallable))
  | .union _ => isResolveTypeKey key
  | .enum values => (values.map EnumValue.name).contains key
  | .inputObject _ _ => false

/-- Whether an entry of a resolver map fits a schema. -/
def entryFits (schema : Schema) (name : Name) (value : Value) : Bool :=
  match schema.type? name, value with
  | some t, .mapping entries => t.kind ≠ .inputObject && entries.all fun e => keyFits t e.1 e.2
  | some t, .scalarType _ _ => t.kind = .scalar
  | _, _ => false

/-- The keys that do not fit, as far as they are told of: for a scalar type all of them, for other
types the first one. -/
def misfitKeys (schema : Schema) (name : Name) (value : Value) : List String :=
  match schema.type? name, value with
  | some t, .mapping entries =>
    let misfits := Entries.keys (entries.filter fun e => !keyFits t e.1 e.2)
    if t.kind = .scalar then misfits
    else if t.kind = .inputObject then []
    else misfits.take 1
  | _, _ => []

/-! ### Under one key -/

section Key

variable {t : NamedType} {key : String} {value : Value}

/-- Whether an entry is planned or refused is told by whether it fits, and a fault is about it. -/
def Judges (t : NamedType) (key : String) (fine : Bool)
    (result : Except ResolverFault Assignments) : Prop :=
  (fine = true ∧ ∃ assignments, result = .ok assignments) ∨
    (fine = false ∧ ∃ fault, result = .error fault ∧ fault.type = t.name ∧ fault.keys = [key])

theorem fieldAssignments_judges (t : NamedType) (key : String) (value : Value) :
    Judges t key (value.isMapping || value.isCallable) (fieldAssignments t.name key value) := by
  cases value with
  | mapping entries => exact .inl ⟨rfl, _, rfl⟩
  | function name => exact .inl ⟨rfl, _, rfl⟩
  | _ => exact .inr ⟨rfl, _, rfl, rfl, rfl⟩

theorem keyFits_member (ht : t.kind = .object ∨ t.kind = .interface) (key : String)
    (value : Value) :
    keyFits t key value =
      if isResolveTypeKey key then decide (t.kind = .interface)
      else if isTypeOfKey key then decide (t.kind = .object)
      else t.fields.any (·.name = key) && (value.isMapping || value.isCallable) := by
  have hd : isResolveTypeKey key = true → isTypeOfKey key = false :=
    isTypeOfKey_of_isResolveTypeKey
  obtain ⟨name, description, shape⟩ := t
  cases shape with
  | object _ fields =>
    cases hr : isResolveTypeKey key <;> cases hi : isTypeOfKey key <;>
      simp_all [keyFits, NamedType.kind, Shape.kind, NamedType.fields]
  | interface _ fields =>
    cases hr : isResolveTypeKey key <;> cases hi : isTypeOfKey key <;>
      simp_all [keyFits, NamedType.kind, Shape.kind, NamedType.fields]
  | _ => simp [NamedType.kind, Shape.kind] at ht

theorem memberEntry_judges (ht : t.kind = .object ∨ t.kind = .interface) (key : String)
    (value : Value) : Judges t key (keyFits t key value) (memberEntry t key value) := by
  rw [keyFits_member ht, memberEntry]
  -- The cases are in the order of the checks: special keys come before the names of fields.
  by_cases hr : isResolveTypeKey key = true
  · rw [if_pos hr, if_pos hr]
    by_cases hk : t.kind = .interface
    · exact .inl ⟨by simp [hk], _, if_pos hk⟩
    · exact .inr ⟨by simp [hk], _, if_neg hk, rfl, rfl⟩
  rw [if_neg hr, if_neg hr]
  by_cases hi : isTypeOfKey key = true
  · rw [if_pos hi, if_pos hi]
    by_cases hk : t.kind = .object
    · exact .inl ⟨by simp [hk], _, if_pos hk⟩
    · exact .inr ⟨by simp [hk], _, if_neg hk, rfl, rfl⟩
  rw [if_neg hi, if_neg hi]
  by_cases hf : t.fields.any (·.name = key) = true
  · rw [if_pos hf, hf, Bool.true_and]
    exact fieldAssignments_judges t key value
  · exact .inr ⟨by simp [hf], _, if_neg hf, rfl, rfl⟩

theorem entryOf_judges (ht : TakesEntries t) (key : String) (value : Value) :
    Judges t key (keyFits t key value) (entryOf t key value) := by
  obtain ⟨name, description, shape⟩ := t
  cases shape with
  | scalar => exact absurd rfl ht.1
  | object _ _ => exact memberEntry_judges (.inl rfl) key value
  | interface _ _ => exact memberEntry_judges (.inr rfl) key value
  | union _ =>
    by_cases hr : isResolveTypeKey key = true
    · exact .inl ⟨hr, _, if_pos hr⟩
    · exact .inr ⟨Bool.not_eq_true _ ▸ hr, _, if_neg hr, rfl, rfl⟩
  | enum values =>
    by_cases hv : (values.map EnumValue.name).contains key = true
    · exact .inl ⟨hv, _, if_pos hv⟩
    · exact .inr ⟨Bool.not_eq_true _ ▸ hv, _, if_neg hv, rfl, rfl⟩
  | inputObject _ => exact absurd rfl ht.2

end Key

/-! ### Entries of types -/

section Entry

variable {t : NamedType} {schema : Schema} {name : Name} {value : Value}

/-- A fault within the entries of a type is about the first key that does not fit. -/
theorem entriesPart_judges (ht : TakesEntries t) (entries : List (String × Value)) :
    ((entries.all fun e => keyFits t e.1 e.2) = true ∧
      (entriesPart (entryOf t) entries).fault = none) ∨
    ((entries.all fun e => keyFits t e.1 e.2) = false ∧
      ∃ fault, (entriesPart (entryOf t) entries).fault = some fault ∧ fault.type = t.name ∧
        fault.keys = (Entries.keys (entries.filter fun e => !keyFits t e.1 e.2)).take 1) := by
  induction entries with
  | nil => exact .inl ⟨rfl, rfl⟩
  | cons e rest ih =>
    obtain ⟨key, value⟩ := e
    rcases entryOf_judges ht key value with
      ⟨hfits, assignments, hentry⟩ | ⟨hfits, fault, hentry, htype, hkeys⟩
    · simpa [entriesPart, hentry, hfits] using ih
    · exact .inr ⟨by simp [hfits], fault, by simp [entriesPart, hentry], htype,
        by simp [hfits, hkeys]⟩

theorem scalarPart_judges (hk : t.kind = .scalar) (entries : List (String × Value)) :
    ((entries.all fun e => keyFits t e.1 e.2) = true ∧
      (scalarPart t.name (.mapping entries)).fault = none) ∨
    ((entries.all fun e => keyFits t e.1 e.2) = false ∧
      ∃ fault, (scalarPart t.name (.mapping entries)).fault = some fault ∧ fault.type = t.name ∧
        fault.keys = Entries.keys (entries.filter fun e => !keyFits t e.1 e.2)) := by
  have hfits : ∀ key value, keyFits t key value = isScalarKey key := by
    obtain ⟨name, description, shape⟩ := t
    cases shape <;> simp [NamedType.kind, Shape.kind] at hk
    exact fun _ _ => rfl
  -- Of a scalar type all keys that do not fit are told, not only the first one.
  let unknown := (Entries.keys entries).filter (!isScalarKey ·)
  have hunknown : Entries.keys (entries.filter fun e => !keyFits t e.1 e.2) = unknown := by
    simp only [hfits, unknown, Entries.keys, List.filter_map]
    rfl
  have hall : (entries.all fun e => keyFits t e.1 e.2) = unknown.isEmpty := by
    rw [← hunknown, Bool.eq_iff_iff]
    simp [Entries.keys]
  have hfault : (scalarPart t.name (.mapping entries)).fault =
      if unknown.isEmpty then none else some (.scalarKeys t.name unknown) := rfl
  rw [hunknown, hall, hfault]
  cases unknown.isEmpty with
  | true => exact .inl ⟨rfl, rfl⟩
  | false => exact .inr ⟨rfl, _, rfl, rfl, rfl⟩

/-- The part of an entry has no fault exactly if the entry fits, and a fault is about it. -/
theorem typePart_judges (schema : Schema) (name : Name) (value : Value) :
    (entryFits schema name value = true ∧ (typePart schema name value).fault = none) ∨
    (entryFits schema name value = false ∧
      ∃ fault, (typePart schema name value).fault = some fault ∧ fault.type = name ∧
        fault.keys = misfitKeys schema name value) := by
  cases ht : schema.type? name with
  | none =>
    exact .inr ⟨by simp [entryFits, ht], .unknownType name, by simp [typePart, ht], rfl,
      by simp [misfitKeys, ht, ResolverFault.keys]⟩
  | some t =>
    obtain rfl := Schema.name_of_type? ht
    simp only [entryFits, typePart, misfitKeys, ht]
    by_cases hk : t.kind = .scalar
    · rw [if_pos hk]
      cases value with
      | mapping entries => simpa [hk] using scalarPart_judges hk entries
      | scalarType _ _ => exact .inl ⟨by simpa using hk, rfl⟩
      | _ => exact .inr ⟨rfl, _, rfl, rfl, rfl⟩
    rw [if_neg hk]
    cases value with
    | mapping entries =>
      rcases compositePart_mapping t entries with ⟨hi, hp⟩ | ⟨hi, hp⟩
      · exact .inr ⟨by simp [hi], _, by rw [hp], rfl, by simp [hi, ResolverFault.keys]⟩
      · simpa [hk, hi, hp hk] using entriesPart_judges ⟨hk, hi⟩ entries
    | scalarType _ _ => exact .inr ⟨by simpa using hk, _, rfl, rfl, rfl⟩
    | _ => exact .inr ⟨rfl, _, rfl, rfl, rfl⟩

theorem fault_typePart_eq_none_iff_fits :
    (typePart schema name value).fault = none ↔ entryFits schema name value = true := by
  rcases typePart_judges schema name value with ⟨hfits, hnone⟩ | ⟨hfits, fault, hsome, -⟩
  · simp [hfits, hnone]
  · simp [hfits, hsome]

end Entry

/-! ### Maps -/

section Map

variable {schema : Schema} {resolvers : List (String × Value)}

theorem fault_plan_eq_none_iff_fits :
    (plan schema resolvers).fault = none ↔ ∀ e ∈ resolvers, entryFits schema e.1 e.2 = true := by
  rw [fault_plan_eq_none_iff]
  simp only [fault_typePart_eq_none_iff_fits, Prod.forall]

/-- Where entries fit up to one that does not, they are planned, and what that one has besides its
fault. What comes after it is not looked at. -/
theorem plan_misfit {before : List (String × Value)} {name : Name} {value : Value}
    (hbefore : ∀ e ∈ before, entryFits schema e.1 e.2 = true)
    (hmisfit : entryFits schema name value = false) (after : List (String × Value)) :
    (plan schema (before ++ (name, value) :: after)).assignments =
        (before.flatMap fun e => (typePart schema e.1 e.2).assignments) ++
          (typePart schema name value).assignments ∧
      (plan schema (before ++ (name, value) :: after)).fault =
        (typePart schema name value).fault := by
  have hfine : ∀ e ∈ before, (typePart schema e.1 e.2).fault = none :=
    fun e he => fault_typePart_eq_none_iff_fits.mpr (hbefore e he)
  obtain ⟨hassignments, hfault⟩ := plan_append hfine ((name, value) :: after)
  rcases typePart_judges schema name value with ⟨hfits, -⟩ | ⟨-, fault, hsome, -⟩
  · simp [hfits] at hmisfit
  · rw [hassignments, hfault]
    simp [plan, hsome]

theorem exists_misfit {fault : ResolverFault} (h : (plan schema resolvers).fault = some fault) :
    ∃ before name value after, resolvers = before ++ (name, value) :: after ∧
      (∀ e ∈ before, entryFits schema e.1 e.2 = true) ∧ entryFits schema name value = false := by
  cases hfound : resolvers.find? fun e => !entryFits schema e.1 e.2 with
  | none =>
    have hfits : ∀ e ∈ resolvers, entryFits schema e.1 e.2 = true := by
      simpa using List.find?_eq_none.mp hfound
    simp [fault_plan_eq_none_iff_fits.mpr hfits] at h
  | some found =>
    obtain ⟨hmisfit, before, after, heq, hbefore⟩ := List.find?_eq_some_iff_append.mp hfound
    exact ⟨before, found.1, found.2, after, heq, by simpa using hbefore, by simpa using hmisfit⟩

theorem fits_of_ok {b : Bindings} {built : ExecutableSchema}
    (h : (addResolversWork schema resolvers b).outcome.1 = .ok built) :
    (∀ e ∈ resolvers, entryFits schema e.1 e.2 = true) ∧
      ⟨schema, addResolvers schema resolvers b⟩ = built := by
  rw [outcome_addResolversWork] at h
  cases hf : (plan schema resolvers).fault with
  | none => exact ⟨fault_plan_eq_none_iff_fits.mp hf, by simpa [hf] using h⟩
  | some fault => simp [hf] at h

theorem outcome_of_fits (hfits : ∀ e ∈ resolvers, entryFits schema e.1 e.2 = true) (b : Bindings) :
    (addResolversWork schema resolvers b).outcome.1 =
      .ok ⟨schema, addResolvers schema resolvers b⟩ := by
  rw [outcome_addResolversWork, fault_plan_eq_none_iff_fits.mpr hfits]

end Map

end Resolver

open Resolver in
/-- A resolver map is refused exactly if one of its entries does not fit. What fits is a matter of
the types of the schema alone, whatever is bound. The fault is about the first entry that does not
fit, and about the keys of it that do not. -/
theorem addResolversWork_refuses (schema : Schema) (resolvers : List (String × Value))
    (b : Bindings) :
    (∀ other known, other.types = schema.types →
      ((∃ failure, (addResolversWork other resolvers known).outcome.1 = .error failure) ↔
        ∃ e ∈ resolvers, entryFits schema e.1 e.2 = false)) ∧
    ∀ failure, (addResolversWork schema resolvers b).outcome.1 = .error failure →
      ∃ fault before name value after, failure = .resolver fault ∧
        resolvers = before ++ (name, value) :: after ∧
        (∀ e ∈ before, entryFits schema e.1 e.2 = true) ∧
        entryFits schema name value = false ∧
        fault.type = name ∧ fault.keys = misfitKeys schema name value := by
  have hiff : ∀ other known, other.types = schema.types →
      ((∃ failure, (addResolversWork other resolvers known).outcome.1 = .error failure) ↔
        ∃ e ∈ resolvers, entryFits schema e.1 e.2 = false) := by
    intro other known htypes
    have hfits : ∀ name value, entryFits other name value = entryFits schema name value :=
      fun name value => by simp only [entryFits, Schema.type?, htypes]
    have hnone : (plan other resolvers).fault = none ↔
        ∀ e ∈ resolvers, entryFits schema e.1 e.2 = true := by
      rw [fault_plan_eq_none_iff_fits]
      simp only [hfits]
    rw [outcome_addResolversWork]
    cases hf : (plan other resolvers).fault with
    | none => simpa using hnone.mp hf
    | some fault => simpa [hf] using hnone
  refine ⟨hiff, fun failure hfailure => ?_⟩
  rw [outcome_addResolversWork] at hfailure
  cases hf : (plan schema resolvers).fault with
  | none => simp [hf] at hfailure
  | some fault =>
    obtain ⟨before, name, value, after, rfl, hbefore, hmisfit⟩ := exists_misfit hf
    obtain rfl : .resolver fault = failure := by simpa [hf] using hfailure
    rw [(plan_misfit hbefore hmisfit after).2] at hf
    rcases typePart_judges schema name value with ⟨hfits, -⟩ | ⟨-, own, hsome, htype, hkeys⟩
    · simp [hfits] at hmisfit
    · obtain rfl := Option.some.inj (hsome.symm.trans hf)
      exact ⟨own, before, name, value, after, rfl, rfl, hbefore, hmisfit, htype, hkeys⟩

end SchemaLoom
