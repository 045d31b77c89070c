import Mathlib.Data.List.Basic
import SchemaLoom.Proofs.Resolvers.Plan

/-! The slots that the entries of a resolver map are planned for: only slots of the type they are
given for, and each of them only from the entries under certain keys. -/

namespace SchemaLoom

namespace Resolver

def isSpecialKey (key : String) : Bool := isResolveTypeKey key || isTypeOfKey key

def typeOf : Slot → Name
  | .isTypeOf type => type
  | .resolveType type => type
  | .resolve type _ => type
  | .subscribe type _ => type
  | .enumValue type _ => type
  | .serialize type => type
  | .parseValue type => type
  | .parseLiteral type => type

/-- The rule by which entries of a type that is not scalar are bound. -/
def entryOf (t : NamedType) : String → Value → Except ResolverFault Assignments :=
  match t.shape with
  | .union _ => unionEntry t
  | .enum values => enumEntry t (values.map EnumValue.name)
  | _ => memberEntry t

/-- A type whose entries are bound one after the other. -/
def TakesEntries (t : NamedType) : Prop := t.kind ≠ .scalar ∧ t.kind ≠ .inputObject

/-- What is given for a field under one of the keys of its resolvers. A function alone resolves the
field. -/
def fieldFunction (key : String) : Value → Option Value
  | .mapping entries => Entries.get? key entries
  | .function name => if key = "resolve" then some (.function name) else none
  | _ => none

/-- Whether a type takes resolvers for a field of some name. -/
def takesField (t : NamedType) (field : Name) : Bool :=
  (t.kind = .object || t.kind = .interface) && !isSpecialKey field

/-- What can be planned for an entry of a type that is not scalar. -/
inductive EntryPlan (t : NamedType) (key : String) (value : Value) : Assignments → Prop where
  | isTypeOf : t.kind = .object → isTypeOfKey key = true →
    EntryPlan t key value [(.isTypeOf t.name, value)]
  | resolveType : t.kind = .interface ∨ t.kind = .union → isResolveTypeKey key = true →
    EntryPlan t key value [(.resolveType t.name, value)]
  | field {assignments : Assignments} : takesField t key = true →
    fieldAssignments t.name key value = .ok assignments → EntryPlan t key value assignments
  | enumValue : t.kind = .enum → EntryPlan t key value [(.enumValue t.name key, value)]

/-- What the value under a key of a type that is not scalar gives for a slot of the type. -/
def entryGives (t : NamedType) (key : String) (value : Value) : Slot → Option Value
  | .isTypeOf _ => if t.kind = .object ∧ isTypeOfKey key = true then some value else none
  | .resolveType _ =>
    if (t.kind = .interface ∨ t.kind = .union) ∧ isResolveTypeKey key = true then some value
    else none
  | .resolve _ field =>
    if takesField t key = true ∧ field = key then fieldFunction "resolve" value else none
  | .subscribe _ field =>
    if takesField t key = true ∧ field = key then fieldFunction "subscribe" value else none
  | .enumValue _ name => if t.kind = .enum ∧ key = name then some value else none
  | _ => none

theorem compositePart_mapping (t : NamedType) (entries : List (String × Value)) :
    (t.kind = .inputObject ∧
      compositePart t (.mapping entries) = ⟨[], some (.unresolvable t.name)⟩) ∨
    (t.kind ≠ .inputObject ∧ (t.kind ≠ .scalar →
      compositePart t (.mapping entries) = entriesPart (entryOf t) entries)) := by
  obtain ⟨name, description, shape⟩ := t
  cases shape <;> simp [compositePart, entryOf, NamedType.kind, Shape.kind]

theorem isTypeOfKey_of_isResolveTypeKey {key : String} (h : isResolveTypeKey key = true) :
    isTypeOfKey key = false := by
  simp only [isResolveTypeKey, Bool.or_eq_true, decide_eq_true_eq] at h
  rcases h with rfl | rfl <;> decide

/-! ### Slots of scalar types -/

theorem scalarAssignments_eq (type : Name) (entries : List (String × Value)) :
    scalarAssignments type entries =
      (scalarSlots type).filterMap fun e => (functionAt? e.1 entries).map fun own => (e.2, own) := by
  refine List.filterMap_congr fun e _ => ?_
  dsimp only [functionAt?]
  cases Entries.get? e.1 entries with
  | none => rfl
  | some own => cases own <;> rfl

/-- The slots of scalar types get what is given under their keys and is not absent. -/
theorem lastFor_scalarAssignments (type : Name) (entries : List (String × Value)) (s : Slot) :
    lastFor s (scalarAssignments type entries) =
      if s = .serialize type then functionAt? "serialize" entries
      else if s = .parseValue type then functionAt? "parse_value" entries
      else if s = .parseLiteral type then functionAt? "parse_literal" entries
      else none := by
  rw [scalarAssignments_eq]
  cases hs : functionAt? "serialize" entries <;> cases hv : functionAt? "parse_value" entries <;>
    cases hl : functionAt? "parse_literal" entries <;>
    simp [scalarSlots, hs, hv, hl, lastFor]
  all_goals grind

/-! ### Slots of other types -/

theorem lastFor_singleton (s slot : Slot) (value : Value) :
    lastFor s [(slot, value)] = if slot = s then some value else none := by
  simp [lastFor]

theorem lastFor_field (type field : Name) (entries : List (String × Value)) (s : Slot) :
    lastFor s
        (((Entries.get? "resolve" entries).map fun v => (Slot.resolve type field, v)).toList
          ++ ((Entries.get? "subscribe" entries).map fun v =>
            (Slot.subscribe type field, v)).toList) =
      if s = .resolve type field then Entries.get? "resolve" entries
      else if s = .subscribe type field then Entries.get? "subscribe" entries
      else none := by
  have hnone : ∀ (slot : Slot) (own : Option Value),
      lastFor s (own.map fun v => (slot, v)).toList = if slot = s then own else none := by
    intro slot own
    cases own <;> simp [lastFor]
  rw [lastFor_append, hnone, hnone]
  by_cases hr : s = .resolve type field
  · subst hr
    simp
  · by_cases hs : s = .subscribe type field
    · subst hs
      simp
    · have hr' : Slot.resolve type field ≠ s := fun h => hr h.symm
      have hs' : Slot.subscribe type field ≠ s := fun h => hs h.symm
      simp [hr, hs, hr', hs']

section Slots

variable {t : NamedType} {s : Slot} {key : String} {value : Value} {assignments : Assignments}

theorem entryPlan_of_memberEntry (h : memberEntry t key value = .ok assignments) :
    EntryPlan t key value assignments := by
  rw [memberEntry] at h
  by_cases hr : isResolveTypeKey key = true
  · rw [if_pos hr] at h
    split at h
    case isTrue hk =>
      obtain rfl := Except.ok.inj h
      exact .resolveType (.inl hk) hr
    case isFalse => cases h
  rw [if_neg hr] at h
  by_cases hi : isTypeOfKey key = true
  · rw [if_pos hi] at h
    split at h
    case isTrue hk =>
      obtain rfl := Except.ok.inj h
      exact .isTypeOf hk hi
    case isFalse => cases h
  rw [if_neg hi] at h
  split at h
  case isTrue hf =>
    refine .field ?_ h
    obtain ⟨name, description, shape⟩ := t
    cases shape <;>
      simp_all [takesField, isSpecialKey, NamedType.kind, Shape.kind, NamedType.fields]
  case isFalse => cases h

theorem entryPlan_of_entryOf (h : entryOf t key value = .ok assignments) :
    EntryPlan t key value assignments := by
  obtain ⟨name, description, shape⟩ := t
  cases shape with
  | union _ =>
    simp only [entryOf, unionEntry] at h
    split at h
    case isTrue hr =>
      obtain rfl := Except.ok.inj h
      exact .resolveType (.inr rfl) hr
    case isFalse => cases h
  | enum values =>
    simp only [entryOf, enumEntry] at h
    split at h
    case isTrue =>
      obtain rfl := Except.ok.inj h
      exact .enumValue rfl
    case isFalse => cases h
  | _ => exact entryPlan_of_memberEntry h

theorem lastFor_fieldAssignments {type field : Name}
    (h : fieldAssignments type field value = .ok assignments) (s : Slot) :
    lastFor s assignments =
      if s = .resolve type field then fieldFunction "resolve" value
      else if s = .subscribe type field then fieldFunction "subscribe" value
      else none := by
  cases value with
  | mapping entries =>
    obtain rfl := Except.ok.inj h
    exact lastFor_field type field entries s
  | function name =>
    obtain rfl := Except.ok.inj h
    simp [lastFor_singleton, fieldFunction, eq_comm]
  | _ => simp [fieldAssignments, Value.isCallable] at h

theorem lastFor_entryPlan (h : EntryPlan t key value assignments) (hs : typeOf s = t.name) :
    lastFor s assignments = entryGives t key value s := by
  -- No special key is looked up among the fields, so each key fills slots of one kind only.
  have hspecial : isSpecialKey key = true → takesField t key = false := by
    simp +contextual [takesField]
  cases h with
  | isTypeOf hk hkey =>
    have hno := hspecial (by simp [isSpecialKey, hkey])
    cases s <;> simp_all [lastFor_singleton, entryGives, typeOf]
  | resolveType hk hkey =>
    have hno := hspecial (by simp [isSpecialKey, hkey])
    have hother : t.kind ≠ .object ∧ t.kind ≠ .enum := by rcases hk with hk | hk <;> simp [hk]
    cases s <;> simp_all [lastFor_singleton, entryGives, typeOf]
  | field hf h =>
    obtain ⟨hk, hr, hi⟩ : (t.kind = .object ∨ t.kind = .interface) ∧
        isResolveTypeKey key = false ∧ isTypeOfKey key = false := by
      simpa [takesField, isSpecialKey] using hf
    have hother : t.kind ≠ .enum := by rcases hk with hk | hk <;> simp [hk]
    rw [lastFor_fieldAssignments h]
    cases s <;> simp_all [entryGives, typeOf]
  | enumValue hk =>
    cases s <;> simp_all [lastFor_singleton, entryGives, typeOf, takesField]

theorem lastFor_entryOf (h : entryOf t key value = .ok assignments) (s : Slot)
    (hs : typeOf s = t.name) : lastFor s assignments = entryGives t key value s :=
  lastFor_entryPlan (entryPlan_of_entryOf h) hs

theorem lastFor_planned {entries : List (String × Value)}
    (hfine : (entriesPart (entryOf t) entries).fault = none) (hs : typeOf s = t.name)
    (hm : (key, value) ∈ entries) :
    lastFor s (planned (entryOf t) key value) = entryGives t key value s := by
  obtain ⟨assignments, ha⟩ := fault_entriesPart_eq_none_iff.mp hfine key value hm
  rw [planned, ha]
  exact lastFor_entryOf ha s hs

end Slots

/-! ### The type of a slot -/

theorem lastFor_eq_none {s : Slot} {assignments : Assignments} (h : ∀ a ∈ assignments, a.1 ≠ s) :
    lastFor s assignments = none := by
  induction assignments with
  | nil => rfl
  | cons a rest ih =>
    have ha := h a (List.mem_cons_self ..)
    rw [lastFor, ih fun a' ha' => h a' (List.mem_cons_of_mem _ ha'), if_neg ha]
    rfl

theorem mem_entriesPart {entry : String → Value → Except ResolverFault Assignments}
    {entries : List (String × Value)} {a : Slot × Value}
    (h : a ∈ (entriesPart entry entries).assignments) :
    ∃ key value assignments, entry key value = .ok assignments ∧ a ∈ assignments := by
  induction entries with
  | nil => simp [entriesPart] at h
  | cons e rest ih =>
    obtain ⟨key, value⟩ := e
    cases he : entry key value with
    | error fault => simp [entriesPart, he] at h
    | ok assignments =>
      simp only [entriesPart, he, List.mem_append] at h
      rcases h with h | h
      · exact ⟨key, value, assignments, he, h⟩
      · exact ih h

theorem typeOf_of_mem_entryOf {t : NamedType} {key : String} {value : Value}
    {assignments : Assignments} (h : entryOf t key value = .ok assignments) {a : Slot × Value}
    (ha : a ∈ assignments) : typeOf a.1 = t.name := by
  cases entryPlan_of_entryOf h with
  | isTypeOf => simp_all [typeOf]
  | resolveType => simp_all [typeOf]
  | enumValue => simp_all [typeOf]
  | field _ hf =>
    cases value with
    | mapping entries =>
      obtain rfl := Except.ok.inj hf
      simp only [List.mem_append, Option.mem_toList, Option.map_eq_some_iff] at ha
      rcases ha with ⟨own, -, rfl⟩ | ⟨own, -, rfl⟩ <;> rfl
    | function name =>
      obtain rfl := Except.ok.inj hf
      obtain rfl := List.mem_singleton.mp ha
      rfl
    | _ => simp [fieldAssignments, Value.isCallable] at hf

/-- The resolvers under the name of a type are bound to slots of that type. -/
theorem typeOf_of_mem_typePart {schema : Schema} {name : Name} {value : Value} {a : Slot × Value}
    (h : a ∈ (typePart schema name value).assignments) : typeOf a.1 = name := by
  cases ht : schema.type? name with
  | none => simp [typePart, ht] at h
  | some t =>
    obtain rfl := Schema.name_of_type? ht
    have hscalar : ∀ entries, a ∈ scalarAssignments t.name entries → typeOf a.1 = t.name := by
      intro entries hm
      rw [scalarAssignments_eq] at hm
      obtain ⟨e, he, hg⟩ := List.mem_filterMap.mp hm
      obtain ⟨own, -, rfl⟩ := Option.map_eq_some_iff.mp hg
      simp only [scalarSlots, List.mem_cons, List.not_mem_nil, or_false] at he
      rcases he with rfl | rfl | rfl <;> rfl
    simp only [typePart, ht] at h
    split at h
    · cases value with
      | mapping entries => exact hscalar entries h
      | scalarType _ functions => exact hscalar functions h
      | _ => simp [scalarPart] at h
    · rename_i hk
      cases value with
      | mapping entries =>
        rcases compositePart_mapping t entries with ⟨-, hp⟩ | ⟨-, hp⟩
        · simp [hp] at h
        · rw [hp hk] at h
          obtain ⟨key, own, assignments, hentry, ha⟩ := mem_entriesPart h
          exact typeOf_of_mem_entryOf hentry ha
      | _ => simp [compositePart] at h

end Resolver

end SchemaLoom
