import SchemaLoom.Proofs.Resolvers.Binding

/-! Resolver maps that keep to one convention. The convention says for each field whether its
resolvers come as a mapping, and for each type how its special keys are spelled. Under it each slot
has one path of keys, and what a map gives for the slot is the value at the end of its path. -/

namespace SchemaLoom

namespace Resolver

/-- The two spellings of the special keys. -/
inductive Spelling where
  | snake
  | camel
deriving DecidableEq

namespace Spelling

def resolveTypeKey : Spelling → String
  | .snake => "__resolve_type"
  | .camel => "__resolveType"

def isTypeOfKey : Spelling → String
  | .snake => "__is_type_of"
  | .camel => "__isTypeOf"

end Spelling

/-- How resolvers are given: the fields whose resolvers come as mappings, and the spellings of the
special keys of each type. -/
structure Convention where
  usesMapping : Name → Name → Bool
  resolveType : Name → Spelling
  isTypeOf : Name → Spelling

/-- A mapping that holds functions under the keys of a field's resolvers only. -/
def IsResolverMapping : Value → Prop :=
  Value.IsMappingOf fun key own =>
    (key = "resolve" ∨ key = "subscribe") ∧ own.isCallable = true

namespace Convention

variable (c : Convention)

/-- An entry of an object or interface type as the convention has it. -/
structure AllowsMember (type : Name) (key : String) (value : Value) : Prop where
  resolveType : isResolveTypeKey key = true →
    key = (c.resolveType type).resolveTypeKey ∧ value.isCallable = true
  isTypeOf : isTypeOfKey key = true → key = (c.isTypeOf type).isTypeOfKey ∧ value.isCallable = true
  mapping : isSpecialKey key = false → c.usesMapping type key = true → IsResolverMapping value
  function : isSpecialKey key = false → c.usesMapping type key = false → value.isCallable = true

/-- An entry of a type as the convention has it. Entries that no type can have are left open. -/
def Allows (t : NamedType) (key : String) (value : Value) : Prop :=
  match t.kind with
  | .object => c.AllowsMember t.name key value
  | .interface => c.AllowsMember t.name key value
  | .union => isResolveTypeKey key = true →
      key = (c.resolveType t.name).resolveTypeKey ∧ value.isCallable = true
  | .enum => value.isMapping = false
  | .scalar => isScalarKey key = true → value.isCallable = true
  | .inputObject => True

/-- A resolver map that keeps to the convention. Every entry of it is a mapping. -/
structure Admits (schema : Schema) (resolvers : List (String × Value)) : Prop where
  nodup : (Entries.keys resolvers).Nodup
  entry : ∀ name value, (name, value) ∈ resolvers →
    value.IsMappingOf fun key own => ∀ t ∈ schema.type? name, c.Allows t key own

instance : DecidablePred IsResolverMapping :=
  fun value => inferInstanceAs (Decidable (value.IsMappingOf _))

instance (type : Name) (key : String) (value : Value) :
    Decidable (c.AllowsMember type key value) :=
  decidable_of_iff
    ((isResolveTypeKey key = true →
        key = (c.resolveType type).resolveTypeKey ∧ value.isCallable = true) ∧
      (isTypeOfKey key = true →
        key = (c.isTypeOf type).isTypeOfKey ∧ value.isCallable = true) ∧
      (isSpecialKey key = false → c.usesMapping type key = true → IsResolverMapping value) ∧
      (isSpecialKey key = false → c.usesMapping type key = false → value.isCallable = true))
    ⟨fun ⟨hr, hi, hm, hf⟩ => ⟨hr, hi, hm, hf⟩,
      fun h => ⟨h.resolveType, h.isTypeOf, h.mapping, h.function⟩⟩

instance (t : NamedType) (key : String) (value : Value) : Decidable (c.Allows t key value) :=
  match hk : t.kind with
  | .object => decidable_of_iff (c.AllowsMember t.name key value) (by rw [Allows, hk])
  | .interface => decidable_of_iff (c.AllowsMember t.name key value) (by rw [Allows, hk])
  | .union => decidable_of_iff (isResolveTypeKey key = true →
      key = (c.resolveType t.name).resolveTypeKey ∧ value.isCallable = true) (by rw [Allows, hk])
  | .enum => decidable_of_iff (value.isMapping = false) (by rw [Allows, hk])
  | .scalar => decidable_of_iff (isScalarKey key = true → value.isCallable = true)
      (by rw [Allows, hk])
  | .inputObject => isTrue (by rw [Allows, hk]; trivial)

instance (schema : Schema) (resolvers : List (String × Value)) :
    Decidable (c.Admits schema resolvers) :=
  decidable_of_iff
    ((Value.mapping resolvers).IsMappingOf fun name value =>
      value.IsMappingOf fun key own => ∀ t ∈ schema.type? name, c.Allows t key own)
    ⟨fun ⟨_, heq, hnd, h⟩ => Value.mapping.inj heq ▸ ⟨hnd, h⟩,
      fun h => ⟨resolvers, rfl, h.nodup, h.entry⟩⟩

/-- The key of the entry that fills a slot. -/
def key : Slot → String
  | .isTypeOf type => (c.isTypeOf type).isTypeOfKey
  | .resolveType type => (c.resolveType type).resolveTypeKey
  | .resolve _ field => field
  | .subscribe _ field => field
  | .enumValue _ value => value
  | .serialize _ => "serialize"
  | .parseValue _ => "parse_value"
  | .parseLiteral _ => "parse_literal"

/-- Where the value of a slot stands within that entry. -/
def below : Slot → List String
  | .resolve type field => if c.usesMapping type field then ["resolve"] else []
  | .subscribe _ _ => ["subscribe"]
  | _ => []

/-- Whether a type has a slot that can be filled. -/
def fills (t : NamedType) : Slot → Bool
  | .isTypeOf _ => t.kind = .object
  | .resolveType _ => t.kind = .interface || t.kind = .union
  | .resolve _ field => (t.kind = .object || t.kind = .interface) && !isSpecialKey field
  | .subscribe _ field =>
    (t.kind = .object || t.kind = .interface) && !isSpecialKey field && c.usesMapping t.name field
  | .enumValue _ _ => t.kind = .enum
  | .serialize _ => t.kind = .scalar
  | .parseValue _ => t.kind = .scalar
  | .parseLiteral _ => t.kind = .scalar

end Convention

/-- Whether a type has something under a key. -/
def accepts (t : NamedType) (key : String) : Bool :=
  match t.shape with
  | .scalar _ => isScalarKey key
  | .object _ fields =>
    isTypeOfKey key || (!isResolveTypeKey key && fields.any (·.name = key))
  | .interface _ fields =>
    isResolveTypeKey key || (!isTypeOfKey key && fields.any (·.name = key))
  | .union _ => isResolveTypeKey key
  | .enum values => (values.map EnumValue.name).contains key
  | .inputObject _ _ => false

/-- Whether a type takes a mapping with certain keys. -/
def Takes (t : NamedType) (keys : List String) : Prop :=
  t.kind ≠ .inputObject ∧ ∀ key ∈ keys, accepts t key = true

/-- Whether a resolver map has only what the types of a schema have, too. -/
def Fits (schema : Schema) (resolvers : List (String × Value)) : Prop :=
  ∀ name value, (name, value) ∈ resolvers →
    ∃ t, schema.type? name = some t ∧ Takes t (Entries.keys value.entries)

/-- What a map holds for a slot of the schema. -/
def Convention.bound (c : Convention) (schema : Schema) (resolvers : List (String × Value))
    (s : Slot) : Option Value :=
  if (schema.type? (typeOf s)).any (c.fills · s) then
    (Value.mapping resolvers).at? (typeOf s :: c.key s :: c.below s)
  else none

/-! ### What fits -/

section Fits

variable {c : Convention} {t : NamedType} {key : String} {value : Value}

theorem not_mapping_of_callable (h : value.isCallable = true) : value.isMapping = false := by
  cases value with
  | function _ => rfl
  | _ => simp [Value.isCallable] at h

theorem Convention.Allows.member (h : c.Allows t key value)
    (hk : t.kind = .object ∨ t.kind = .interface) : c.AllowsMember t.name key value := by
  rcases hk with hk | hk <;> simpa only [Convention.Allows, hk] using h

theorem Convention.AllowsMember.isMapping_or_isCallable {type : Name}
    (h : c.AllowsMember type key value) (hs : isSpecialKey key = false) :
    (value.isMapping || value.isCallable) = true := by
  cases hm : c.usesMapping type key with
  | true =>
    obtain ⟨entries, rfl, -⟩ := h.mapping hs hm
    rfl
  | false => simp [h.function hs hm]

/-- Under a convention the keys alone tell what fits. -/
theorem Convention.Allows.keyFits_eq (h : c.Allows t key value) :
    keyFits t key value = accepts t key := by
  obtain ⟨name, description, shape⟩ := t
  cases shape with
  | object _ fields =>
    have hvalue := Convention.AllowsMember.isMapping_or_isCallable h
    cases hr : isResolveTypeKey key <;> cases hi : isTypeOfKey key <;>
      simp_all [keyFits, accepts, isSpecialKey]
  | interface _ fields =>
    have hvalue := Convention.AllowsMember.isMapping_or_isCallable h
    cases hr : isResolveTypeKey key <;> cases hi : isTypeOfKey key <;>
      simp_all [keyFits, accepts, isSpecialKey]
  | _ => rfl

variable {schema : Schema} {resolvers : List (String × Value)}

theorem entryFits_iff_takes {name : Name} {entries : List (String × Value)}
    (hall : ∀ key own, (key, own) ∈ entries → ∀ t ∈ schema.type? name, c.Allows t key own) :
    entryFits schema name (.mapping entries) = true ↔
      ∃ t, schema.type? name = some t ∧ Takes t (Entries.keys entries) := by
  cases ht : schema.type? name with
  | none => simp [entryFits, ht]
  | some t =>
    have hkeys : (entries.all fun e => keyFits t e.1 e.2) = true ↔
        ∀ key ∈ Entries.keys entries, accepts t key = true := by
      rw [List.all_eq_true, Entries.keys, List.forall_mem_map]
      exact forall₂_congr fun e he => by rw [(hall e.1 e.2 he t ht).keyFits_eq]
    simp only [entryFits, ht, Bool.and_eq_true, decide_eq_true_eq, hkeys, Option.some.injEq,
      exists_eq_left', Takes]

theorem fault_plan_admitted (ha : c.Admits schema resolvers) :
    (plan schema resolvers).fault = none ↔ Fits schema resolvers := by
  rw [fault_plan_eq_none_iff_fits, Fits, Prod.forall]
  refine forall_congr' fun name => forall_congr' fun value => imp_congr_right fun hm => ?_
  obtain ⟨entries, rfl, -, hall⟩ := ha.entry name value hm
  exact entryFits_iff_takes hall

end Fits

/-! ### What is bound -/

section Bound

variable {c : Convention} {t : NamedType} {key : String} {value : Value}
  {entries : List (String × Value)} {s : Slot}

theorem isTypeOfKey_spelled (s : Spelling) : isTypeOfKey s.isTypeOfKey = true := by
  cases s <;> rfl

theorem isResolveTypeKey_spelled (s : Spelling) : isResolveTypeKey s.resolveTypeKey = true := by
  cases s <;> rfl

theorem lastUnder_eq_get? (hnd : (Entries.keys entries).Nodup) {taken : String → Bool}
    (hkey : taken key = true) (honly : ∀ e ∈ entries, taken e.1 = true → e.1 = key) :
    lastUnder taken entries = Entries.get? key entries := by
  have hfilter : entries.filter (taken ·.1) = entries.filter fun e => e.1 = key := by
    refine List.filter_congr fun e he => ?_
    rw [Bool.eq_iff_iff, decide_eq_true_eq]
    exact ⟨honly e he, fun h => h ▸ hkey⟩
  rw [lastUnder, hfilter, Entries.filter_key hnd]
  cases Entries.get? key entries <;> rfl

theorem functionAt?_of_ne_null
    (h : ∀ own, Entries.get? key entries = some own → own ≠ .null) :
    functionAt? key entries = Entries.get? key entries := by
  rw [functionAt?]
  cases hg : Entries.get? key entries with
  | none => rfl
  | some own =>
    have hown := h own hg
    cases own <;> simp_all

theorem Convention.AllowsMember.fieldFunction_eq {type field : Name}
    (h : c.AllowsMember type field value) (hs : isSpecialKey field = false) :
    fieldFunction "resolve" value = value.at? (c.below (.resolve type field)) ∧
      fieldFunction "subscribe" value =
        if c.usesMapping type field then value.at? ["subscribe"] else none := by
  cases hm : c.usesMapping type field with
  | true =>
    obtain ⟨own, rfl, -⟩ := h.mapping hs hm
    simp [fieldFunction, Convention.below, hm, Value.at?_key]
  | false =>
    have hf := h.function hs hm
    cases value with
    | function name => simp [fieldFunction, Convention.below, hm, Value.at?]
    | _ => simp [Value.isCallable] at hf

section Allowed

variable (hall : ∀ key own, (key, own) ∈ entries → c.Allows t key own)
include hall

-- A convention has one spelling for the special keys of a type, so there is at most one such entry.
theorem lastUnder_isTypeOfKey (hnd : (Entries.keys entries).Nodup) (hk : t.kind = .object) :
    lastUnder isTypeOfKey entries = Entries.get? (c.isTypeOf t.name).isTypeOfKey entries :=
  lastUnder_eq_get? hnd (isTypeOfKey_spelled _) fun e he h =>
    (((hall e.1 e.2 he).member (.inl hk)).isTypeOf h).1

theorem lastUnder_resolveTypeKey (hnd : (Entries.keys entries).Nodup)
    (hk : t.kind = .interface ∨ t.kind = .union) :
    lastUnder isResolveTypeKey entries =
      Entries.get? (c.resolveType t.name).resolveTypeKey entries := by
  refine lastUnder_eq_get? hnd (isResolveTypeKey_spelled _) fun e he h => ?_
  have hown := hall e.1 e.2 he
  rcases hk with hk | hk
  · exact ((hown.member (.inr hk)).resolveType h).1
  · rw [Convention.Allows, hk] at hown
    exact (hown h).1

theorem functionAt?_of_allows (hk : t.kind = .scalar) (hkey : isScalarKey key = true) :
    functionAt? key entries = Entries.get? key entries := by
  refine functionAt?_of_ne_null ?_
  rintro own hg rfl
  have hown := hall key .null (Entries.mem_of_get? hg)
  simp [Convention.Allows, hk, hkey, Value.isCallable] at hown

/-- What a mapping gives for a slot of a type stands where the convention has it. -/
theorem givenFor_of_allows (hnd : (Entries.keys entries).Nodup) (hs : typeOf s = t.name) :
    givenFor t (.mapping entries) s =
      if c.fills t s then (Value.mapping entries).at? (c.key s :: c.below s) else none := by
  have hfield : ∀ field, takesField t field = true → ∀ own ∈ Entries.get? field entries,
      fieldFunction "resolve" own = own.at? (c.below (.resolve t.name field)) ∧
        fieldFunction "subscribe" own =
          if c.usesMapping t.name field then own.at? ["subscribe"] else none := by
    intro field hf own hg
    obtain ⟨hk, hs⟩ : (t.kind = .object ∨ t.kind = .interface) ∧ isSpecialKey field = false := by
      simpa [takesField] using hf
    exact ((hall field own (Entries.mem_of_get? hg)).member hk).fieldFunction_eq hs
  cases s with
  | isTypeOf type =>
    obtain rfl : type = t.name := hs
    by_cases hk : t.kind = .object
    · simp [givenFor, Value.entries, Convention.fills, hk, Convention.key, Convention.below,
        Value.at?_key, lastUnder_isTypeOfKey hall hnd hk]
    · simp [givenFor, Convention.fills, hk]
  | resolveType type =>
    obtain rfl : type = t.name := hs
    by_cases hk : t.kind = .interface ∨ t.kind = .union
    · simp [givenFor, Value.entries, Convention.fills, hk, Convention.key, Convention.below,
        Value.at?_key, lastUnder_resolveTypeKey hall hnd hk]
    · simp [givenFor, Convention.fills, hk]
  | resolve type field =>
    obtain rfl : type = t.name := hs
    have hfills : c.fills t (.resolve t.name field) = takesField t field := rfl
    rw [hfills, givenFor]
    by_cases hf : takesField t field = true
    · rw [if_pos hf, if_pos hf]
      exact Option.bind_congr fun own hg => (hfield field hf own hg).1
    · rw [if_neg hf, if_neg hf]
  | subscribe type field =>
    obtain rfl : type = t.name := hs
    have hfills : c.fills t (.subscribe t.name field) =
        (takesField t field && c.usesMapping t.name field) := rfl
    rw [hfills, givenFor]
    by_cases hf : takesField t field = true
    · have hgiven := Option.bind_congr fun own hg => (hfield field hf own hg).2
      rw [if_pos hf, hf, Bool.true_and, Value.entries, hgiven]
      cases c.usesMapping t.name field with
      | true => rfl
      | false => exact Option.bind_fun_none _
    · simp [hf]
  | enumValue type name =>
    simp [givenFor, Convention.fills, Convention.key, Convention.below, Value.at?_key,
      Value.entries]
  | _ =>
    by_cases hk : t.kind = .scalar
    · simp [givenFor, scalarFunction, Convention.fills, hk, Convention.key, Convention.below,
        Value.at?_key, functionAt?_of_allows hall hk, isScalarKey]
    · simp [givenFor, Convention.fills, hk]

end Allowed

/-- A map gives for a slot what it holds where the convention has it. -/
theorem Convention.Admits.given?_eq {schema : Schema} {resolvers : List (String × Value)}
    (ha : c.Admits schema resolvers) (s : Slot) :
    given? schema resolvers s = c.bound schema resolvers s := by
  rw [given?, Convention.bound, Value.at?_cons]
  cases ht : schema.type? (typeOf s) with
  | none => rfl
  | some t =>
    cases hg : Entries.get? (typeOf s) resolvers with
    | none => simp
    | some value =>
      obtain ⟨entries, rfl, hnd, hall⟩ := ha.entry _ value (Entries.mem_of_get? hg)
      exact givenFor_of_allows (fun key own hm => hall key own hm t ht) hnd
        (Schema.name_of_type? ht).symm

theorem lastFor_plan {schema : Schema} {resolvers : List (String × Value)}
    (ha : c.Admits schema resolvers) (hf : Fits schema resolvers) (s : Slot) :
    lastFor s (plan schema resolvers).assignments = c.bound schema resolvers s := by
  have hfits := fault_plan_eq_none_iff_fits.mp ((fault_plan_admitted ha).mpr hf)
  rw [← ha.given?_eq, lastFor_plan_given ha.nodup hfits]
  intro value hg
  obtain ⟨entries, rfl, hnd, -⟩ := ha.entry _ value (Entries.mem_of_get? hg)
  exact hnd

end Bound

end Resolver

end SchemaLoom
