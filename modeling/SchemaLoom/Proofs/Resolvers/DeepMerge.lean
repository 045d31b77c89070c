import SchemaLoom.Value

/-! What is found in merged entries. Under a key, and under a path of keys, the later value counts
where there is one. -/

namespace SchemaLoom

/-- What stands under a key when a value is put over the one that is there. -/
def Value.over (current : Option Value) : Value → Value
  | .mapping source => .mapping (deepMerge ((current.map Value.entries).getD []) source)
  | value => value

@[simp] theorem deepMerge_nil (target : List (String × Value)) : deepMerge target [] = target := by
  rw [deepMerge]

theorem deepMerge_cons (target : List (String × Value)) (key : String) (value : Value)
    (rest : List (String × Value)) :
    deepMerge target ((key, value) :: rest) =
      deepMerge (Entries.set key (value.over (Entries.get? key target)) target) rest := by
  cases value <;> rw [deepMerge] <;> simp [Value.over]

theorem mem_keys_deepMerge {k : String} {target source : List (String × Value)} :
    k ∈ Entries.keys (deepMerge target source) ↔
      k ∈ Entries.keys target ∨ k ∈ Entries.keys source := by
  induction source generalizing target with
  | nil => simp
  | cons e rest ih =>
    obtain ⟨key, value⟩ := e
    rw [deepMerge_cons, ih, Entries.keys_set, Entries.keys_cons, List.mem_cons]
    by_cases hk : key ∈ Entries.keys target
    · rw [if_pos hk]
      constructor
      · rintro (h | h)
        · exact .inl h
        · exact .inr (.inr h)
      · rintro (h | h | h)
        · exact .inl h
        · exact .inl (h ▸ hk)
        · exact .inr h
    · rw [if_neg hk, List.mem_append, List.mem_singleton, or_assoc]

theorem nodup_keys_deepMerge {target : List (String × Value)}
    (h : (Entries.keys target).Nodup) (source : List (String × Value)) :
    (Entries.keys (deepMerge target source)).Nodup := by
  induction source generalizing target with
  | nil => simpa using h
  | cons e rest ih =>
    obtain ⟨key, value⟩ := e
    rw [deepMerge_cons]
    refine ih ?_
    rw [Entries.keys_set]
    by_cases hk : key ∈ Entries.keys target
    · rwa [if_pos hk]
    · rw [if_neg hk]
      refine List.nodup_append.mpr ⟨h, List.pairwise_singleton _ _, fun a ha b hb hab => ?_⟩
      obtain rfl : b = key := List.mem_singleton.mp hb
      exact hk (hab ▸ ha)

/-- A key that both have has the later value, put over the earlier one. -/
theorem get?_deepMerge {source : List (String × Value)} (h : (Entries.keys source).Nodup)
    (target : List (String × Value)) (k : String) :
    Entries.get? k (deepMerge target source) =
      ((Entries.get? k source).map (Value.over (Entries.get? k target))).or
        (Entries.get? k target) := by
  induction source generalizing target with
  | nil => simp [Entries.get?]
  | cons e rest ih =>
    obtain ⟨key, value⟩ := e
    have hd := List.nodup_cons.mp h
    rw [deepMerge_cons, ih hd.2, Entries.get?_set]
    by_cases hk : k = key
    · subst hk
      have hrest : Entries.get? k rest = none := Entries.get?_eq_none_iff.mpr hd.1
      simp [hrest, Entries.get?]
    · have hne : key ≠ k := fun he => hk he.symm
      simp [Entries.get?, hk, hne]

/-- What the entries of both sides have, and putting one over the other keeps, the merged ones
have. -/
theorem forall_deepMerge {P : String → Value → Prop} {target source : List (String × Value)}
    (ht : (Entries.keys target).Nodup) (hs : (Entries.keys source).Nodup)
    (hover : ∀ key value current, P key value → (∀ known, current = some known → P key known) →
      P key (value.over current))
    (htarget : ∀ key value, (key, value) ∈ target → P key value)
    (hsource : ∀ key value, (key, value) ∈ source → P key value)
    {key : String} {value : Value} (hm : (key, value) ∈ deepMerge target source) : P key value := by
  have hget := Entries.get?_of_mem (nodup_keys_deepMerge ht source) hm
  rw [get?_deepMerge hs] at hget
  cases hown : Entries.get? key source with
  | none => exact htarget key value (Entries.mem_of_get? (by simpa [hown] using hget))
  | some own =>
    obtain rfl : own.over (Entries.get? key target) = value := by simpa [hown] using hget
    exact hover key own _ (hsource key own (Entries.mem_of_get? hown)) fun known hk =>
      htarget key known (Entries.mem_of_get? hk)

def Value.IsMappingOf (P : String → Value → Prop) (value : Value) : Prop :=
  ∃ entries, value = .mapping entries ∧ (Entries.keys entries).Nodup ∧
    ∀ key own, (key, own) ∈ entries → P key own

theorem Value.isMappingOf_iff {P : String → Value → Prop} {value : Value} :
    value.IsMappingOf P ↔ value.isMapping = true ∧ (Entries.keys value.entries).Nodup ∧
      ∀ e ∈ value.entries, P e.1 e.2 := by
  constructor
  · rintro ⟨entries, rfl, hnd, h⟩
    exact ⟨rfl, hnd, fun e he => h e.1 e.2 he⟩
  · rintro ⟨hm, hnd, h⟩
    cases value with
    | mapping entries => exact ⟨entries, rfl, hnd, fun key own he => h (key, own) he⟩
    | _ => simp [isMapping] at hm

instance (P : String → Value → Prop) [∀ key own, Decidable (P key own)] :
    DecidablePred (Value.IsMappingOf P) :=
  fun _ => decidable_of_iff' _ Value.isMappingOf_iff

theorem Value.IsMappingOf.over {P : String → Value → Prop} {value : Value} {current : Option Value}
    (hover : ∀ key value current, P key value → (∀ known, current = some known → P key known) →
      P key (value.over current))
    (hv : value.IsMappingOf P) (hc : ∀ known, current = some known → known.IsMappingOf P) :
    (value.over current).IsMappingOf P := by
  obtain ⟨source, rfl, hsource, hall⟩ := hv
  obtain ⟨target, heq, htarget, hknown⟩ : ∃ target, (current.map Value.entries).getD [] = target ∧
      (Entries.keys target).Nodup ∧ ∀ key own, (key, own) ∈ target → P key own := by
    cases hcur : current with
    | none => exact ⟨[], rfl, by simp, by simp⟩
    | some known =>
      obtain ⟨entries, rfl, hnd, hown⟩ := hc known hcur
      exact ⟨entries, rfl, hnd, hown⟩
  refine ⟨deepMerge target source, by rw [Value.over, heq], nodup_keys_deepMerge htarget source,
    fun key own hm => ?_⟩
  exact forall_deepMerge htarget hsource hover hknown hall hm

def Value.at? : List String → Value → Option Value
  | [], value => some value
  | key :: path, value => (Entries.get? key value.entries).bind (Value.at? path)

theorem Value.at?_key (key : String) (entries : List (String × Value)) :
    (Value.mapping entries).at? [key] = Entries.get? key entries := by
  change (Entries.get? key entries).bind some = _
  exact Option.bind_fun_some _

/-- Along a path there are mappings, and at its end there is none. The path may end before. -/
def Value.Leads : List String → Value → Prop
  | [], value => value.isMapping = false
  | key :: path, value => ∃ entries, value = .mapping entries ∧ (Entries.keys entries).Nodup ∧
      ∀ below, Entries.get? key entries = some below → Value.Leads path below

namespace Value

theorem over_of_not_mapping {value : Value} (h : value.isMapping = false)
    (current : Option Value) : value.over current = value := by
  cases value with
  | mapping _ => simp [isMapping] at h
  | _ => rfl

/-- At the end of a path the later value counts, and the earlier one where there is no later. -/
theorem over_leads {path : List String} {current : Option Value} {value : Value}
    (hc : ∀ known, current = some known → known.Leads path) (hv : value.Leads path) :
    (value.over current).Leads path ∧
      (value.over current).at? path = (value.at? path).or (current.bind (at? path)) := by
  induction path generalizing current value with
  | nil =>
    rw [over_of_not_mapping hv]
    exact ⟨hv, rfl⟩
  | cons key path ih =>
    obtain ⟨source, rfl, hnd, hbelow⟩ := hv
    let target := (current.map entries).getD []
    have hat : current.bind (at? (key :: path)) = (Entries.get? key target).bind (at? path) := by
      cases current <;> rfl
    have hknown : (Entries.keys target).Nodup ∧
        ∀ below, Entries.get? key target = some below → below.Leads path := by
      cases hcur : current with
      | none => simp [target, hcur, Entries.get?]
      | some known =>
        obtain ⟨own, rfl, hown⟩ := hc known hcur
        simpa [target, hcur, entries] using hown
    have hget := get?_deepMerge hnd target key
    have hnext : ∀ own, Entries.get? key source = some own →
        (own.over (Entries.get? key target)).Leads path ∧
          (own.over (Entries.get? key target)).at? path =
            (own.at? path).or ((Entries.get? key target).bind (at? path)) := fun own hown =>
      ih hknown.2 (hbelow own hown)
    refine ⟨⟨deepMerge target source, rfl, nodup_keys_deepMerge hknown.1 source,
      fun below hb => ?_⟩, ?_⟩
    · rw [hget] at hb
      cases hs : Entries.get? key source with
      | none => exact hknown.2 below (by simpa [hs] using hb)
      | some own =>
        obtain rfl : own.over (Entries.get? key target) = below := by simpa [hs] using hb
        exact (hnext own hs).1
    · change (Entries.get? key (deepMerge target source)).bind (at? path) =
        ((Entries.get? key source).bind (at? path)).or (current.bind (at? (key :: path)))
      rw [hget, hat]
      cases hs : Entries.get? key source with
      | none => rfl
      | some own => exact (hnext own hs).2

end Value

end SchemaLoom
