import SchemaLoom.Proofs.Schema.Rearranged

/-! Arguments and input fields of rearranged definitions. They come out the same, and faults are the
same ones but for their places. -/

namespace SchemaLoom

def BuildFault.unlocated : BuildFault → BuildFault
  | .badArgument name problem _ => .badArgument name problem none
  | .within type part cause => .within type part cause.unlocated
  | fault => fault

theorem BuildFault.metWithin_unlocated (type : Name) (part : TypePart) (fault : BuildFault) :
    (fault.metWithin type part).unlocated = fault.unlocated.metWithin type part := by
  cases fault <;> rfl

namespace Build

open Validation

def unlocated (result : Result α) : Result α := result.mapError BuildFault.unlocated

section Results

variable {result : Result α} {f : α → Result β}

@[simp] theorem unlocated_ok (a : α) : unlocated (.ok a) = .ok a := rfl

@[simp] theorem unlocated_pure (a : α) : unlocated (pure a) = pure a := rfl

@[simp] theorem unlocated_error (fault : BuildFault) :
    unlocated (.error fault : Result α) = .error fault.unlocated := rfl

@[simp] theorem unlocated_throw (fault : BuildFault) :
    unlocated (throw fault : Result α) = throw fault.unlocated := rfl

@[simp] theorem unlocated_bind :
    unlocated (result >>= f) = unlocated result >>= fun a => unlocated (f a) := by
  cases result <;> rfl

@[simp] theorem unlocated_map (g : α → β) : unlocated (g <$> result) = g <$> unlocated result := by
  cases result <;> rfl

theorem unlocated_mapM (f : α → Result β) (items : List α) :
    unlocated (items.mapM f) = items.mapM fun a => unlocated (f a) := by
  induction items with
  | nil => rfl
  | cons a rest ih => simp only [List.mapM_cons, unlocated_bind, unlocated_pure, ih]

theorem mapM_map_unlocated {u : α → γ} {g : γ → Result β} (h : ∀ a, g (u a) = unlocated (f a))
    (items : List α) : (items.map u).mapM g = unlocated (items.mapM f) := by
  rw [List.mapM_map, unlocated_mapM, ← funext h]
  rfl

theorem unlocated_noteWithin (type : Name) (part : TypePart) :
    unlocated (noteWithin type part result) = noteWithin type part (unlocated result) := by
  cases result with
  | ok a => rfl
  | error fault => exact congrArg Except.error (fault.metWithin_unlocated type part)

theorem unlocated_eq_ok_iff {a : α} : unlocated result = .ok a ↔ result = .ok a := by
  cases result <;> simp

@[simp] theorem unlocated_kindOf (doc : List Definition) (name : Name) :
    unlocated (kindOf doc name) = kindOf doc name := by
  rw [kindOf]
  cases kind? doc name <;> rfl

end Results

theorem argument?_unlocated (d : Directive) (name : Name) :
    argument? d.unlocated name = (argument? d name).map Argument.unlocated := by
  rw [argument?, argument?, Directive.unlocated, ← List.map_reverse, List.find?_map]
  rfl

theorem find?_directive_unlocated (ds : List Directive) (name : Name) :
    (ds.map Directive.unlocated).find? (·.name = name) =
      (ds.find? (·.name = name)).map Directive.unlocated := List.find?_map ..

theorem deprecation_unlocated (ds : List Directive) :
    deprecation (ds.map Directive.unlocated) = unlocated (deprecation ds) := by
  rw [deprecation, deprecation, find?_directive_unlocated]
  cases ds.find? (·.name = "deprecated") with
  | none => rfl
  | some d =>
    simp only [Option.map_some, argument?_unlocated]
    cases argument? d "reason" with
    | none => rfl
    | some a =>
      obtain ⟨_, value, _⟩ := a
      cases value <;> rfl

/-! ### Defaults -/

section Defaults

variable {doc bare : List Definition} {leaf : Name → Result Bool}
  {inputFields : Name → Result (List InputField)}

theorem fits_unlocated (items : Option (TypeRef → Result Bool)) (type : TypeRef) :
    fits (fun name => unlocated (leaf name)) (items.map fun check type => unlocated (check type))
      type = unlocated (fits leaf items type) := by
  induction type generalizing items with
  | named name => rfl
  | nonNull type ih => exact ih items
  | list type ih =>
    cases items with
    | none => exact ih none
    | some check => rfl

theorem fitsNamed_unlocated (h : Rearranged doc bare) (value : Literal) (name : Name) :
    fitsNamed bare value (fun own => unlocated (leaf own)) name =
      unlocated (fitsNamed doc value leaf name) := by
  rw [fitsNamed, fitsNamed, unlocated_bind, unlocated_kindOf, h.kindOf]
  refine congrArg _ (funext fun kind => ?_)
  have htakes : takesLiteral bare = takesLiteral doc := by
    funext own kind value
    simp only [takesLiteral, h.enumNames]
  rw [htakes]
  cases kind <;> rfl

/-- What is given for fields, with checks that drop places. -/
def unlocatedGiven (given : List (Name × (Literal × (TypeRef → Result Bool)))) :
    List (Name × (Literal × (TypeRef → Result Bool))) :=
  given.map fun e => (e.1, e.2.1, fun type => unlocated (e.2.2 type))

theorem fieldValues_unlocated (given : Entries (Literal × (TypeRef → Result Bool)))
    (fields : List InputField) :
    fieldValues (unlocatedGiven given) fields = unlocated (fieldValues given fields) := by
  induction fields with
  | nil => rfl
  | cons f rest ih =>
    have hgiven : Entries.get? f.name (unlocatedGiven given) = (Entries.get? f.name given).map
        fun e => (e.1, fun type => unlocated (e.2 type)) :=
      Entries.get?_map (fun e : Literal × (TypeRef → Result Bool) =>
        (e.1, fun type => unlocated (e.2 type))) f.name given
    rw [fieldValues, fieldValues, hgiven, ih]
    cases Entries.get? f.name given with
    | some e =>
      simp only [Option.map_some, unlocated_bind]
      refine congrArg _ (funext fun fits => ?_)
      cases fits <;> simp
    | none =>
      cases f.effective with
      | some value => simp
      | none => cases hn : f.type.isNonNull <;> simp

theorem ofList_unlocatedGiven (given : List (Name × (Literal × (TypeRef → Result Bool)))) :
    Entries.ofList (unlocatedGiven given) = unlocatedGiven (Entries.ofList given) :=
  Entries.ofList_map (fun e : Literal × (TypeRef → Result Bool) =>
    (e.1, fun type => unlocated (e.2 type))) given

theorem fitsFields_unlocated (h : Rearranged doc bare) (name : Name) (fields : List InputField)
    (given : List (Name × (Literal × (TypeRef → Result Bool)))) :
    fitsFields bare name fields (unlocatedGiven given) =
      unlocated (fitsFields doc name fields given) := by
  rw [fitsFields, fitsFields, ofList_unlocatedGiven, fieldValues_unlocated, h.isOneOf,
    unlocated_bind]
  refine congrArg _ (funext fun values => ?_)
  cases values <;> rfl

theorem fitsNamed_false_unlocated (h : Rearranged doc bare) (value : Literal) :
    fitsNamed bare value (fun _ => .ok false) = fun name =>
      unlocated (fitsNamed doc value (fun _ => .ok false) name) :=
  funext (@fitsNamed_unlocated doc bare (fun _ => .ok false) h value)

mutual

/-- The recursion is that of the values; input types are not gone into. -/
theorem fitsType_unlocated (h : Rearranged doc bare)
    (inputFields : Name → Result (List InputField)) (value : Literal) :
    fitsType bare (fun name => unlocated (inputFields name)) value =
      fun type => unlocated (fitsType doc inputFields value type) := by
  funext type
  cases value with
  | null => simp only [fitsType, unlocated_ok]
  | list items =>
    rw [fitsType, fitsType, fitsItems_unlocated h inputFields items,
      fitsNamed_false_unlocated h]
    exact fits_unlocated (some (fitsItems doc inputFields items)) type
  | object given =>
    rw [fitsType, fitsType, fitsGiven_unlocated h inputFields given]
    have hinner : ∀ name, (unlocated (inputFields name) >>= fun fields =>
          fitsFields bare name fields (unlocatedGiven (fitsGiven doc inputFields given))) =
        unlocated (inputFields name >>= fun fields =>
          fitsFields doc name fields (fitsGiven doc inputFields given)) := by
      intro name
      rw [unlocated_bind]
      exact congrArg _ (funext fun fields => fitsFields_unlocated h name fields _)
    rw [funext hinner, funext (fitsNamed_unlocated h (.object given))]
    exact fits_unlocated none type
  | _ =>
    rw [fitsType, fitsType, fitsNamed_false_unlocated h]
    · exact fits_unlocated none type
    all_goals simp

theorem fitsItems_unlocated (h : Rearranged doc bare)
    (inputFields : Name → Result (List InputField)) : (items : List Literal) →
    fitsItems bare (fun name => unlocated (inputFields name)) items =
      fun type => unlocated (fitsItems doc inputFields items type)
  | [] => by
    funext type
    simp only [fitsItems, unlocated_ok]
  | item :: items => by
    funext type
    rw [fitsItems, fitsItems, fitsType_unlocated h inputFields item,
      fitsItems_unlocated h inputFields items, unlocated_bind]
    refine congrArg _ (funext fun fits => ?_)
    cases fits <;> rfl

theorem fitsGiven_unlocated (h : Rearranged doc bare)
    (inputFields : Name → Result (List InputField)) : (given : List (Name × Literal)) →
    fitsGiven bare (fun name => unlocated (inputFields name)) given =
      unlocatedGiven (fitsGiven doc inputFields given)
  | [] => by simp only [fitsGiven, unlocatedGiven, List.map_nil]
  | (name, value) :: rest => by
    rw [fitsGiven, fitsGiven, fitsType_unlocated h inputFields value,
      fitsGiven_unlocated h inputFields rest]
    rfl

end

theorem inputField_unlocated (h : Rearranged doc bare)
    (inputFields : Name → Result (List InputField)) (notInput : BuildFault)
    (hplace : notInput.unlocated = notInput) (description : Option StringLiteral) (name : Name)
    (type : TypeRef) (default : Option Literal) (ds : List Directive) :
    inputField bare (fun own => unlocated (inputFields own)) notInput description name type default
        (ds.map Directive.unlocated) =
      unlocated (inputField doc inputFields notInput description name type default ds) := by
  have hfilter : default.filterM (fun value =>
        fitsType bare (fun own => unlocated (inputFields own)) value type) =
      unlocated (default.filterM fun value => fitsType doc inputFields value type) := by
    cases default with
    | none => rfl
    | some value =>
      rw [Option.filterM_some, Option.filterM_some, unlocated_map, fitsType_unlocated h]
  rw [inputField, inputField, unlocated_bind, unlocated_kindOf, h.kindOf, hfilter]
  refine congrArg _ (funext fun kind => ?_)
  rw [unlocated_bind]
  refine congrArg _ (funext fun effective => ?_)
  rw [unlocated_bind, deprecation_unlocated]
  refine congrArg _ (funext fun reason => ?_)
  cases isInput kind
  · simp [hplace]
  · rfl

theorem inputFieldsOf_unlocated (h : Rearranged doc bare)
    (inputFields : Name → Result (List InputField)) (d : TypeDefinition) :
    inputFieldsOf bare (fun own => unlocated (inputFields own)) d.unlocated =
      unlocated (inputFieldsOf doc inputFields d) := by
  have hfields : ∀ f : FieldDefinition,
      inputField bare (fun own => unlocated (inputFields own)) .inputFieldNotInput
          f.unlocated.description f.unlocated.name f.unlocated.type f.unlocated.default
          f.unlocated.directives =
        unlocated (inputField doc inputFields .inputFieldNotInput f.description f.name f.type
          f.default f.directives) := fun f =>
    inputField_unlocated h inputFields _ rfl f.description f.name f.type f.default f.directives
  rw [inputFieldsOf, inputFieldsOf, unlocated_noteWithin, partsOf, partsOf,
    extensionsOf_of_plain h.plain, extensionsOf_of_plain h.plain', d.name_unlocated, unlocated_bind,
    List.flatMap_singleton, List.flatMap_singleton, TypeDefinition.fieldsOf_unlocated,
    mapM_map_unlocated hfields]
  rfl

end Defaults

/-! ### Input types -/

theorem lastOfEach_of_nodup {name : α → Name} {items : List α} (h : (items.map name).Nodup) :
    lastOfEach name items = items := by
  have hkeys : Entries.keys (items.map fun item => (name item, item)) = items.map name :=
    List.map_map ..
  rw [lastOfEach, Entries.ofList_of_nodup (hkeys ▸ h), List.map_map]
  exact List.map_id _

def InputType.unlocated (type : InputType) : InputType :=
  ⟨type.definition.unlocated, Build.unlocated type.fields⟩

@[simp] theorem InputType.isSettled_unlocated (type : InputType) :
    type.unlocated.isSettled = type.isSettled := by
  obtain ⟨definition, fields⟩ := type
  cases fields with
  | ok fields => rfl
  | error fault => cases fault <;> rfl

namespace InputTypes

def names (types : InputTypes) : List Name := types.map (·.definition.name)

@[simp] theorem names_advance (doc : List Definition) (types : InputTypes) :
    names (advance doc types) = names types := by
  rw [names, names, advance, List.map_map]
  refine List.map_congr_left fun type _ => ?_
  rw [Function.comp_apply]
  split <;> rfl

theorem names_settle (doc : List Definition) (n : Nat) (types : InputTypes) :
    names (settle doc n types) = names types := by
  induction n generalizing types with
  | zero => rfl
  | succ n ih =>
    rw [settle]
    split
    · exact names_advance doc types
    · rw [ih, names_advance]

variable {doc bare : List Definition} {types others : InputTypes}

theorem fields_of_perm (hp : others.Perm (types.map InputType.unlocated))
    (hnd : (names types).Nodup) : others.fields = fun name => unlocated (types.fields name) := by
  have hkeys : ((types.map InputType.unlocated).map (·.definition.name)).Nodup := by
    rw [List.map_map]
    exact hnd
  funext name
  have hfind : others.find? (·.definition.name = name) =
      (types.find? (·.definition.name = name)).map InputType.unlocated := by
    rw [← find?_key_perm hkeys hp.symm, List.find?_map]
    rfl
  rw [fields, fields, hfind]
  cases types.find? (·.definition.name = name) <;> rfl

theorem advance_perm (h : Rearranged doc bare)
    (hp : others.Perm (types.map InputType.unlocated)) (hnd : (names types).Nodup) :
    (advance bare others).Perm ((advance doc types).map InputType.unlocated) := by
  rw [advance, advance, fields_of_perm hp hnd, List.map_map]
  have hperm := hp.map fun type => if type.isSettled then type else
    (⟨type.definition, inputFieldsOf bare (fun name => unlocated (types.fields name))
      type.definition⟩ : InputType)
  refine hperm.trans (.of_eq ?_)
  rw [List.map_map]
  refine List.map_congr_left fun type _ => ?_
  rw [Function.comp_apply, Function.comp_apply, InputType.isSettled_unlocated]
  split
  · rfl
  · exact congrArg (InputType.mk _) (inputFieldsOf_unlocated h types.fields type.definition)

/-- What is found out in a round does not depend on the order of the types, so the same number of
them gets settled. -/
theorem settle_perm (h : Rearranged doc bare) (n : Nat)
    (hp : others.Perm (types.map InputType.unlocated)) (hnd : (names types).Nodup) :
    (settle bare n others).Perm ((settle doc n types).map InputType.unlocated) := by
  have hcount : ∀ {own mine : InputTypes}, mine.Perm (own.map InputType.unlocated) →
      mine.countP InputType.isSettled = own.countP InputType.isSettled := by
    intro own mine hperm
    rw [hperm.countP_eq, List.countP_map, Function.comp_def,
      funext InputType.isSettled_unlocated]
  induction n generalizing types others with
  | zero => exact hp
  | succ n ih =>
    have hnext := advance_perm h hp hnd
    -- Both stop in the same round, since they have the same number of settled types.
    rw [settle, settle, hcount hp, hcount hnext]
    split
    · exact hnext
    · exact ih hnext (by rwa [names_advance])

end InputTypes

theorem nodup_names_inputTypes {doc : List Definition} (h : (titles doc).Nodup) :
    (inputTypes doc).names.Nodup := by
  rw [inputTypes, InputTypes.names_settle, lastOfEach_of_nodup (nodup_definedTypeNames h),
    InputTypes.names, List.map_map]
  exact (nodup_definedTypeNames h).sublist (List.filter_sublist.map _)

theorem inputTypes_perm {doc bare : List Definition} (h : Rearranged doc bare) :
    (inputTypes bare).Perm ((inputTypes doc).map InputType.unlocated) := by
  have hnames := nodup_names_inputTypes h.nodup
  rw [inputTypes, InputTypes.names_settle] at hnames
  have hperm := h.typeDefinitions_perm.filter (·.kind = .inputObject)
  simp only [List.filter_map, Function.comp_def, TypeDefinition.kind_unlocated] at hperm
  have hunknown := hperm.map InputType.unknown
  rw [List.map_map] at hunknown
  rw [lastOfEach_of_nodup (nodup_definedTypeNames h.nodup)] at hnames
  rw [inputTypes, inputTypes, lastOfEach_of_nodup (nodup_definedTypeNames h.nodup),
    lastOfEach_of_nodup (nodup_definedTypeNames h.nodup'), hperm.length_eq, List.length_map]
  refine InputTypes.settle_perm h _ ?_ hnames
  rw [List.map_map]
  exact hunknown

theorem fields_inputTypes {doc bare : List Definition} (h : Rearranged doc bare) :
    (inputTypes bare).fields = fun name => unlocated ((inputTypes doc).fields name) :=
  InputTypes.fields_of_perm (inputTypes_perm h) (nodup_names_inputTypes h.nodup)

end Build

end SchemaLoom
