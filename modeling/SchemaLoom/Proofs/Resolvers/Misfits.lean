import SchemaLoom.Proofs.Resolvers.Binding

/-! What a resolver map binds that does not fit: exactly what the map binds that is cut off before
the first misfit. -/

namespace SchemaLoom

namespace Resolver

/-- What is bound of the entries of a type. For a scalar type these are the functions, wherever they
stand, for other types the entries before the first one that does not fit. -/
def fittingEntries (t : NamedType) (entries : List (String × Value)) : List (String × Value) :=
  if t.kind = .scalar then entries.filter (isScalarKey ·.1)
  else entries.takeWhile fun e => keyFits t e.1 e.2

/-- What is bound of an entry that does not fit. -/
def fittingPart (schema : Schema) (name : Name) (value : Value) : List (String × Value) :=
  match schema.type? name, value with
  | some t, .mapping entries =>
    if t.kind = .inputObject then [] else [(name, .mapping (fittingEntries t entries))]
  | _, _ => []

/-! ### The part of an entry that fits -/

section Part

variable {schema : Schema} {name : Name} {value : Value} {t : NamedType}

theorem entriesPart_takeWhile (ht : TakesEntries t) (entries : List (String × Value)) :
    entriesPart (entryOf t) (entries.takeWhile fun e => keyFits t e.1 e.2) =
      ⟨(entriesPart (entryOf t) entries).assignments, none⟩ := by
  induction entries with
  | nil => rfl
  | cons e rest ih =>
    rw [List.takeWhile_cons]
    rcases entryOf_judges ht e.1 e.2 with
      ⟨hfits, assignments, hentry⟩ | ⟨hfits, fault, hentry, -⟩
    · simp only [hfits, if_true, entriesPart, hentry, ih]
    · simp only [hfits, Bool.false_eq_true, if_false, entriesPart, hentry]

theorem scalarPart_filter (type : Name) (entries : List (String × Value)) :
    scalarPart type (.mapping (entries.filter (isScalarKey ·.1))) =
      ⟨(scalarPart type (.mapping entries)).assignments, none⟩ := by
  have hassignments : scalarAssignments type (entries.filter (isScalarKey ·.1)) =
      scalarAssignments type entries := by
    rw [scalarAssignments_eq, scalarAssignments_eq]
    refine List.filterMap_congr fun e he => ?_
    have hkey : isScalarKey e.1 = true := by
      simp only [scalarSlots, List.mem_cons, List.not_mem_nil, or_false] at he
      rcases he with rfl | rfl | rfl <;> rfl
    rw [functionAt?, functionAt?, get?_filter_of_taken hkey]
  have hunknown :
      (Entries.keys (entries.filter (isScalarKey ·.1))).filter (!isScalarKey ·) = [] := by
    simp [Entries.keys, List.filter_map, List.filter_filter, Function.comp_def]
  simp only [scalarPart, hassignments, hunknown, List.isEmpty_nil, if_true]

/-- The fitting part of a mapping has no fault, and all that is planned for the mapping. -/
theorem typePart_fittingEntries (ht : schema.type? name = some t) (hi : t.kind ≠ .inputObject)
    (entries : List (String × Value)) :
    typePart schema name (.mapping (fittingEntries t entries)) =
      ⟨(typePart schema name (.mapping entries)).assignments, none⟩ := by
  simp only [typePart, ht, fittingEntries]
  -- Functions of a scalar type are taken wherever they stand, other entries up to the first misfit.
  by_cases hk : t.kind = .scalar
  · simp only [if_pos hk, scalarPart_filter]
  · have hp : ∀ entries, compositePart t (.mapping entries) = entriesPart (entryOf t) entries := by
      intro entries
      rcases compositePart_mapping t entries with ⟨hi', -⟩ | ⟨-, hp⟩
      · exact absurd hi' hi
      · exact hp hk
    simp only [if_neg hk, hp, entriesPart_takeWhile ⟨hk, hi⟩]

theorem fittingPart_fits (hmisfit : entryFits schema name value = false) :
    (∀ e ∈ fittingPart schema name value, entryFits schema e.1 e.2 = true) ∧
      ((fittingPart schema name value).flatMap fun e => (typePart schema e.1 e.2).assignments) =
        (typePart schema name value).assignments := by
  simp only [← fault_typePart_eq_none_iff_fits]
  cases ht : schema.type? name with
  | none => simp [fittingPart, typePart, ht]
  | some t =>
    cases value with
    | mapping entries =>
      by_cases hi : t.kind = .inputObject
      · have hk : t.kind ≠ .scalar := by simp [hi]
        rcases compositePart_mapping t entries with ⟨-, hp⟩ | ⟨hi', -⟩
        · simp [fittingPart, typePart, ht, hi, hp]
        · exact absurd hi hi'
      · have hpart := typePart_fittingEntries ht hi entries
        simp [fittingPart, ht, hi, hpart]
    | scalarType _ _ =>
      have hk : t.kind ≠ .scalar := by simpa [entryFits, ht] using hmisfit
      simp [fittingPart, typePart, ht, hk, compositePart]
    | _ =>
      by_cases hk : t.kind = .scalar <;>
        simp [fittingPart, typePart, ht, hk, scalarPart, compositePart]

end Part

/-! ### Maps that are cut off -/

section Cut

variable {schema : Schema} {before after : List (String × Value)} {name : Name} {value : Value}

theorem distinctKeys_sublist {entries part : List (String × Value)}
    (hd : (Value.mapping entries).distinctKeys = true) (hs : part.Sublist entries) :
    (Value.mapping part).distinctKeys = true := by
  obtain ⟨hnd, hbelow⟩ := Value.distinctKeys_mapping.mp hd
  exact Value.distinctKeys_mapping.mpr
    ⟨hnd.sublist (hs.map Prod.fst), fun e he => hbelow e (hs.subset he)⟩

theorem fittingEntries_sublist (t : NamedType) (entries : List (String × Value)) :
    (fittingEntries t entries).Sublist entries := by
  rw [fittingEntries]
  split
  · exact List.filter_sublist
  · exact List.takeWhile_sublist _

theorem fittingPart_eq (schema : Schema) (name : Name) (value : Value) :
    fittingPart schema name value = [] ∨ ∃ entries part, value = .mapping entries ∧
      part.Sublist entries ∧ fittingPart schema name value = [(name, .mapping part)] := by
  cases ht : schema.type? name with
  | none => exact .inl (by simp [fittingPart, ht])
  | some t =>
    cases value with
    | mapping entries =>
      by_cases hi : t.kind = .inputObject
      · exact .inl (by simp [fittingPart, ht, hi])
      · exact .inr ⟨entries, _, rfl, fittingEntries_sublist t entries,
          by simp [fittingPart, ht, hi]⟩
    | _ => exact .inl (by simp [fittingPart, ht])

theorem distinctKeys_cut
    (hd : (Value.mapping (before ++ (name, value) :: after)).distinctKeys = true) :
    (Value.mapping (before ++ fittingPart schema name value)).distinctKeys = true := by
  rcases fittingPart_eq schema name value with hnil | ⟨entries, part, rfl, hpart, heq⟩
  · rw [hnil, List.append_nil]
    exact distinctKeys_sublist hd (List.sublist_append_left ..)
  · have hs : (before ++ [(name, Value.mapping entries)]).Sublist
        (before ++ (name, .mapping entries) :: after) :=
      List.Sublist.append_left (List.singleton_sublist.mpr (List.mem_cons_self ..)) before
    obtain ⟨hnd, hbelow⟩ := Value.distinctKeys_mapping.mp (distinctKeys_sublist hd hs)
    rw [heq]
    refine Value.distinctKeys_mapping.mpr ⟨by simpa [Entries.keys] using hnd, fun e he => ?_⟩
    rcases List.mem_append.mp he with he | he
    · exact hbelow e (List.mem_append_left _ he)
    · obtain rfl := List.mem_singleton.mp he
      exact distinctKeys_sublist (hbelow _ (List.mem_append_right _ (List.mem_singleton_self _)))
        hpart

/-- What comes before the first misfit is bound, with what fits of the misfit itself, and nothing
else. -/
theorem addResolvers_misfit (hbefore : ∀ e ∈ before, entryFits schema e.1 e.2 = true)
    (hmisfit : entryFits schema name value = false) (after : List (String × Value))
    (b : Bindings) :
    (∀ e ∈ before ++ fittingPart schema name value, entryFits schema e.1 e.2 = true) ∧
      addResolvers schema (before ++ (name, value) :: after) b =
        addResolvers schema (before ++ fittingPart schema name value) b := by
  obtain ⟨hpart, hplanned⟩ := fittingPart_fits hmisfit
  have hkept : ∀ e ∈ before ++ fittingPart schema name value, entryFits schema e.1 e.2 = true :=
    List.forall_mem_append.mpr ⟨hbefore, hpart⟩
  refine ⟨hkept, ?_⟩
  rw [addResolvers, addResolvers, (plan_misfit hbefore hmisfit after).1,
    assignments_plan (fault_plan_eq_none_iff_fits.mpr hkept), List.flatMap_append, hplanned]

end Cut

end Resolver

open Resolver in
/-- A map that does not fit binds what the map binds that is cut off before the first misfit: the
entries before it, and of the misfit itself what fits. Nothing after it has any effect. -/
theorem addResolversWork_cutOff {schema : Schema} {resolvers : List (String × Value)}
    {b : Bindings} {failure : Failure} (hkeys : (Value.mapping resolvers).distinctKeys = true)
    (h : (addResolversWork schema resolvers b).outcome.1 = .error failure) :
    ∃ before name value after, resolvers = before ++ (name, value) :: after ∧
      (∀ e ∈ before, entryFits schema e.1 e.2 = true) ∧ entryFits schema name value = false ∧
      let left := addResolvers schema resolvers b
      let kept := before ++ fittingPart schema name value
      (addResolversWork schema kept b).outcome.1 = .ok ⟨schema, left⟩ ∧
        (∀ s, left.get s = (given? schema kept s).getD (b.get s)) ∧
        ∀ others, addResolvers schema (before ++ (name, value) :: others) b = left := by
  rw [outcome_addResolversWork] at h
  cases hf : (plan schema resolvers).fault with
  | none => simp [hf] at h
  | some fault =>
    obtain ⟨before, name, value, after, rfl, hbefore, hmisfit⟩ := exists_misfit hf
    have hcut := fun others => addResolvers_misfit hbefore hmisfit others b
    obtain ⟨hkept, hleft⟩ := hcut after
    refine ⟨before, name, value, after, rfl, hbefore, hmisfit, ?_⟩
    rw [hleft]
    exact ⟨outcome_of_fits hkept b, get_addResolvers (distinctKeys_cut hkeys) hkept b,
      fun others => (hcut others).2⟩

open Resolver in
/-- A scalar type with a key that it does not take between two that it does, before a type that would
fit. -/
theorem addResolversWork_cutOff_scalar :
    let query : NamedType := ⟨"Query", none, .object [] [⟨"now", .named "Date", none, none, []⟩]⟩
    let date : NamedType := ⟨"Date", none, .scalar none⟩
    let color : NamedType := ⟨"Color", none, .enum [⟨"RED", none, none⟩]⟩
    let schema : Schema := ⟨some "Query", none, none, none, [], [query, date, color]⟩
    let first : String × Value := ("Query", .mapping [("now", .function "clock")])
    let resolvers : List (String × Value) := [first,
      ("Date", .mapping [("serialize", .function "iso"), ("serialise", .function "iso"),
        ("parse_value", .function "date")]),
      ("Color", .mapping [("RED", .integer 1)])]
    let cut : List (String × Value) := [first,
      ("Date", .mapping [("serialize", .function "iso"), ("parse_value", .function "date")])]
    let left := addResolvers schema resolvers Bindings.initial
    (∃ failure, (addResolversWork schema resolvers Bindings.initial).outcome.1 = .error failure) ∧
      (addResolversWork schema cut Bindings.initial).outcome.1 = .ok ⟨schema, left⟩ ∧
      left.get (.parseValue "Date") = .function "date" ∧
      left.get (.enumValue "Color" "RED") = .text "RED" := by
  intro query date color schema first resolvers cut left
  have hkeys : (Value.mapping resolvers).distinctKeys = true := by decide
  have hfirst : entryFits schema first.1 first.2 = true := by decide
  have hdate : entryFits schema "Date" (resolvers[1].2) = false := by decide
  have hfails : (addResolversWork schema resolvers Bindings.initial).outcome.1 =
      .error (.resolver (.scalarKeys "Date" ["serialise"])) := by
    rw [outcome_addResolversWork]
    rfl
  obtain ⟨before, name, value, after, heq, hbefore, hmisfit, hcut, hslots, -⟩ :=
    addResolversWork_cutOff hkeys hfails
  -- The first entry fits and the second does not, so the map is cut off there.
  have hsplit : before = [first] ∧ name = "Date" ∧ value = resolvers[1].2 := by
    match before, heq with
    | [], heq =>
      obtain ⟨rfl, rfl⟩ := Prod.mk.inj (List.cons.inj heq).1
      exact absurd (hmisfit.symm.trans hfirst) (by decide)
    | [e], heq =>
      obtain ⟨rfl, hrest⟩ := List.cons.inj heq
      obtain ⟨rfl, rfl⟩ := Prod.mk.inj (List.cons.inj hrest).1
      exact ⟨rfl, rfl, rfl⟩
    | e :: e' :: _, heq =>
      obtain ⟨rfl, -⟩ := List.cons.inj (List.cons.inj heq).2
      have hfits := hbefore _ (List.mem_cons_of_mem _ (List.mem_cons_self ..))
      exact absurd (hdate.symm.trans hfits) (by decide)
  obtain ⟨rfl, rfl, rfl⟩ := hsplit
  exact ⟨⟨_, hfails⟩, hcut, (hslots (.parseValue "Date")).trans rfl,
    (hslots (.enumValue "Color" "RED")).trans rfl⟩

end SchemaLoom
