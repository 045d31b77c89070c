import SchemaLoom.Module

/-! What a resolver map binds: each slot gets the last value that is planned for it, and a map
without faults plans what its entries do, one after the other. -/

namespace SchemaLoom

namespace Resolver

/-- The last value that is planned for a slot. -/
def lastFor (s : Slot) : Assignments → Option Value
  | [] => none
  | (slot, value) :: rest => (lastFor s rest).or (if slot = s then some value else none)

theorem lastFor_append (s : Slot) (first second : Assignments) :
    lastFor s (first ++ second) = (lastFor s second).or (lastFor s first) := by
  induction first with
  | nil => simp [lastFor]
  | cons a rest ih => simp [lastFor, ih, Option.or_assoc]

theorem get_bindAll (assignments : Assignments) (b : Bindings) (s : Slot) :
    (b.bindAll assignments).get s = (lastFor s assignments).getD (b.get s) := by
  induction assignments generalizing b with
  | nil => rfl
  | cons a rest ih =>
    have hstep : (b.bindAll (a :: rest)).get s = ((b.bind a.1 a.2).bindAll rest).get s := rfl
    rw [hstep, ih, lastFor, Option.getD_or]
    by_cases hs : a.1 = s
    · simp [Bindings.bind, hs]
    · have hne : s ≠ a.1 := fun h => hs h.symm
      simp [Bindings.bind, hs, hne]

/-- Only the entry with a certain key plans something for a slot, if the others do not. -/
theorem lastFor_flatMap {entries : List (String × Value)} (hnd : (Entries.keys entries).Nodup)
    (plans : String → Value → Assignments) {s : Slot} (key : String)
    (h : ∀ k value, (k, value) ∈ entries → k ≠ key → lastFor s (plans k value) = none) :
    lastFor s (entries.flatMap fun e => plans e.1 e.2) =
      (Entries.get? key entries).bind fun value => lastFor s (plans key value) := by
  induction entries with
  | nil => rfl
  | cons e rest ih =>
    obtain ⟨k, value⟩ := e
    have hd := List.nodup_cons.mp hnd
    have hrest := ih hd.2 fun k' value' hm => h k' value' (List.mem_cons_of_mem _ hm)
    rw [List.flatMap_cons, lastFor_append, hrest]
    by_cases hk : k = key
    · subst hk
      have hnone : Entries.get? k rest = none := Entries.get?_eq_none_iff.mpr hd.1
      simp [Entries.get?, hnone]
    · have hown := h k value (List.mem_cons_self ..) hk
      simp [Entries.get?, hk, hown]

/-- What an entry that fits plans. -/
def planned (entry : String → Value → Except ResolverFault Assignments) (key : String)
    (value : Value) : Assignments :=
  match entry key value with
  | .ok assignments => assignments
  | .error _ => []

theorem fault_entriesPart_eq_none_iff {entry : String → Value → Except ResolverFault Assignments}
    {entries : List (String × Value)} :
    (entriesPart entry entries).fault = none ↔
      ∀ key value, (key, value) ∈ entries → ∃ assignments, entry key value = .ok assignments := by
  induction entries with
  | nil => simp [entriesPart]
  | cons e rest ih =>
    obtain ⟨key, value⟩ := e
    cases he : entry key value with
    | error fault =>
      simp only [entriesPart, he, reduceCtorEq, false_iff]
      intro h
      obtain ⟨assignments, ha⟩ := h key value (List.mem_cons_self ..)
      simp [he] at ha
    | ok assignments =>
      simp only [entriesPart, he, ih]
      constructor
      · intro h k v hm
        rcases List.mem_cons.mp hm with heq | hm
        · obtain ⟨rfl, rfl⟩ := Prod.mk.inj heq
          exact ⟨assignments, he⟩
        · exact h k v hm
      · intro h k v hm
        exact h k v (List.mem_cons_of_mem _ hm)

/-- Entries that fit are planned before the others are looked at. -/
theorem entriesPart_append {entry : String → Value → Except ResolverFault Assignments}
    {before : List (String × Value)}
    (h : ∀ e ∈ before, ∃ assignments, entry e.1 e.2 = .ok assignments)
    (rest : List (String × Value)) :
    entriesPart entry (before ++ rest) =
      ⟨(before.flatMap fun e => planned entry e.1 e.2) ++ (entriesPart entry rest).assignments,
        (entriesPart entry rest).fault⟩ := by
  induction before with
  | nil => rfl
  | cons e before ih =>
    obtain ⟨key, value⟩ := e
    obtain ⟨assignments, ha⟩ := h (key, value) (List.mem_cons_self ..)
    have hrest := ih fun e he => h e (List.mem_cons_of_mem _ he)
    dsimp only at ha
    simp only [List.cons_append, entriesPart, ha, hrest, List.flatMap_cons, planned,
      List.append_assoc]

theorem assignments_entriesPart {entry : String → Value → Except ResolverFault Assignments}
    {entries : List (String × Value)} (h : (entriesPart entry entries).fault = none) :
    (entriesPart entry entries).assignments = entries.flatMap fun e => planned entry e.1 e.2 := by
  have hall := fault_entriesPart_eq_none_iff.mp h
  have happend := entriesPart_append (fun e he => hall e.1 e.2 he) []
  rw [List.append_nil] at happend
  rw [happend]
  exact List.append_nil _

variable {schema : Schema} {resolvers : List (String × Value)}

theorem fault_plan_eq_none_iff :
    (plan schema resolvers).fault = none ↔
      ∀ name value, (name, value) ∈ resolvers → (typePart schema name value).fault = none := by
  induction resolvers with
  | nil => simp [plan]
  | cons e rest ih =>
    obtain ⟨name, value⟩ := e
    cases he : (typePart schema name value).fault with
    | some fault =>
      simp only [plan, he, reduceCtorEq, false_iff]
      intro h
      simp [h name value (List.mem_cons_self ..)] at he
    | none =>
      simp only [plan, he, ih]
      constructor
      · intro h n v hm
        rcases List.mem_cons.mp hm with heq | hm
        · obtain ⟨rfl, rfl⟩ := Prod.mk.inj heq
          exact he
        · exact h n v hm
      · intro h n v hm
        exact h n v (List.mem_cons_of_mem _ hm)

/-- Type entries without faults are planned before the others are looked at. -/
theorem plan_append {before : List (String × Value)}
    (h : ∀ e ∈ before, (typePart schema e.1 e.2).fault = none) (rest : List (String × Value)) :
    (plan schema (before ++ rest)).assignments =
        (before.flatMap fun e => (typePart schema e.1 e.2).assignments) ++
          (plan schema rest).assignments ∧
      (plan schema (before ++ rest)).fault = (plan schema rest).fault := by
  induction before with
  | nil => exact ⟨rfl, rfl⟩
  | cons e before ih =>
    obtain ⟨name, value⟩ := e
    have he := h (name, value) (List.mem_cons_self ..)
    obtain ⟨hassignments, hfault⟩ := ih fun e he => h e (List.mem_cons_of_mem _ he)
    dsimp only at he
    simp only [List.cons_append, plan, he, hassignments, hfault, List.flatMap_cons,
      List.append_assoc, and_self]

theorem assignments_plan (h : (plan schema resolvers).fault = none) :
    (plan schema resolvers).assignments =
      resolvers.flatMap fun e => (typePart schema e.1 e.2).assignments := by
  have hall := fault_plan_eq_none_iff.mp h
  have happend := (plan_append (fun e he => hall e.1 e.2 he) []).1
  rw [List.append_nil] at happend
  rw [happend]
  exact List.append_nil _

end Resolver

theorem Schema.name_of_type? {schema : Schema} {name : Name} {t : NamedType}
    (h : schema.type? name = some t) : t.name = name := by
  simpa using List.find?_some h

theorem endFrom_addResolversWork (schema : Schema) (resolvers : List (String × Value))
    (b : Bindings) (records : List LogRecord) :
    (addResolversWork schema resolvers b).endFrom records =
      (match (Resolver.plan schema resolvers).fault with
        | some fault => .error (.resolver fault)
        | none => .ok ⟨schema, addResolvers schema resolvers b⟩,
      records ++ (Resolver.plan schema resolvers).reported.map .addedResolvers) := by
  rw [addResolversWork, Work.endFrom_bind, Work.endFrom_forIn_record]
  cases hf : (Resolver.plan schema resolvers).fault <;> simp [Work.endFrom_pure, Work.endFrom_throw]

theorem outcome_addResolversWork (schema : Schema) (resolvers : List (String × Value))
    (b : Bindings) :
    (addResolversWork schema resolvers b).outcome.1 =
      match (Resolver.plan schema resolvers).fault with
      | some fault => .error (.resolver fault)
      | none => .ok ⟨schema, addResolvers schema resolvers b⟩ := by
  rw [Work.outcome_eq, endFrom_addResolversWork]

end SchemaLoom
