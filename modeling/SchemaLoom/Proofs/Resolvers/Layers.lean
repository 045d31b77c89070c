import SchemaLoom.Proofs.Entries
import SchemaLoom.Proofs.Resolvers.DeepMerge

/-! Values put over one another in turn, as merging any number of maps does under each key, and when
the last of them is what comes of it. -/

namespace SchemaLoom

mutual

/-- No mapping in a value has a key twice. -/
def Value.distinctKeys : Value → Bool
  | .mapping entries => (Entries.keys entries).Nodup && Value.distinctKeysBelow entries
  | _ => true

def Value.distinctKeysBelow : List (String × Value) → Bool
  | [] => true
  | (_, value) :: rest => value.distinctKeys && Value.distinctKeysBelow rest

end

/-! ### Merging any number of maps -/

section Maps

variable {maps : List (List (String × Value))} {target source : List (String × Value)}

theorem deepMerge_append (target first second : List (String × Value)) :
    deepMerge target (first ++ second) = deepMerge (deepMerge target first) second := by
  induction first generalizing target with
  | nil => rw [List.nil_append, deepMerge_nil]
  | cons e rest ih =>
    obtain ⟨key, value⟩ := e
    rw [List.cons_append, deepMerge_cons, deepMerge_cons, ih]

theorem foldl_deepMerge (maps : List (List (String × Value))) (target : List (String × Value)) :
    maps.foldl deepMerge target = deepMerge target maps.flatten := by
  induction maps generalizing target with
  | nil => rw [List.flatten_nil, deepMerge_nil, List.foldl_nil]
  | cons m rest ih => rw [List.foldl_cons, ih, List.flatten_cons, deepMerge_append]

theorem nodup_keys_foldl_deepMerge (maps : List (List (String × Value))) :
    (Entries.keys (maps.foldl deepMerge [])).Nodup := by
  rw [foldl_deepMerge]
  exact nodup_keys_deepMerge (by simp) _

/-- The entry of a key is the last that was given for it. -/
theorem mem_of_mem_ofList_append {first last : List (String × Value)} {k : String} {value : Value}
    (hnd : (Entries.keys (Entries.ofList (first ++ last))).Nodup)
    (h : (k, value) ∈ Entries.ofList (first ++ last)) (hk : k ∈ Entries.keys last) :
    (k, value) ∈ last := by
  have hget := Entries.get?_of_mem hnd h
  rw [Entries.get?_ofList, List.reverse_append, Entries.get?_append] at hget
  have hown : Entries.get? k last.reverse ≠ none := by
    intro hnone
    refine Entries.get?_eq_none_iff.mp hnone ?_
    rw [Entries.keys, List.map_reverse]
    exact List.mem_reverse.mpr hk
  obtain ⟨own, ho⟩ := Option.ne_none_iff_exists'.mp hown
  obtain rfl : own = value := by simpa [ho] using hget
  exact List.mem_reverse.mp (Entries.mem_of_get? ho)

/-- Entries without mappings replace what was there. -/
theorem deepMerge_eq_ofList (h : ∀ e ∈ source, e.2.isMapping = false) :
    deepMerge [] source = Entries.ofList source := by
  suffices hfrom : ∀ target, deepMerge target source =
      source.foldl (fun known (key, value) => Entries.set key value known) target from hfrom []
  induction source with
  | nil => exact deepMerge_nil
  | cons e rest ih =>
    intro target
    obtain ⟨key, value⟩ := e
    have hvalue := h (key, value) (List.mem_cons_self ..)
    rw [deepMerge_cons, Value.over_of_not_mapping hvalue, List.foldl_cons,
      ih fun e he => h e (List.mem_cons_of_mem _ he)]

/-- What comes of values that are put over one another. -/
def Value.layered (values : List Value) : Option Value :=
  values.foldl (fun current value => some (value.over current)) none

/-- Under a key there is what comes of all values that the maps have under it. -/
theorem get?_foldl_deepMerge (hmaps : ∀ m ∈ maps, (Entries.keys m).Nodup) (k : String) :
    Entries.get? k (maps.foldl deepMerge []) = Value.layered (maps.filterMap (Entries.get? k)) := by
  induction maps using List.reverseRecOn with
  | nil => rfl
  | append_singleton maps m ih =>
    have hm : (Entries.keys m).Nodup := hmaps m (by simp)
    have hrest := ih fun m' hm' => hmaps m' (List.mem_append_left _ hm')
    rw [List.foldl_append, List.foldl_cons, List.foldl_nil, get?_deepMerge hm, hrest,
      List.filterMap_append]
    cases hk : Entries.get? k m with
    | none => simp [hk]
    | some value => simp [hk, Value.layered]

theorem get?_filter_of_taken {taken : String → Bool} {k : String} (hk : taken k = true)
    (entries : List (String × Value)) :
    Entries.get? k (entries.filter (taken ·.1)) = Entries.get? k entries := by
  induction entries with
  | nil => rfl
  | cons e rest ih =>
    by_cases he : e.1 = k
    · subst he
      simp [Entries.get?, hk]
    · by_cases ht : taken e.1 = true
      · simp [Entries.get?, ht, he, ih]
      · simp [Entries.get?, ht, he, ih]

theorem set_filter (taken : String → Bool) (key : String) (value : Value)
    (entries : List (String × Value)) :
    (Entries.set key value entries).filter (taken ·.1) =
      if taken key then Entries.set key value (entries.filter (taken ·.1))
      else entries.filter (taken ·.1) := by
  induction entries with
  | nil => by_cases ht : taken key = true <;> simp [Entries.set, ht]
  | cons e rest ih =>
    by_cases he : e.1 = key
    · subst he
      by_cases ht : taken e.1 = true <;> simp [Entries.set, ht]
    · by_cases hk : taken key = true <;> by_cases ht : taken e.1 = true <;>
        simp_all [Entries.set]

/-- Merging only the entries under certain keys gives those of the merged map. -/
theorem filter_deepMerge (taken : String → Bool) (target source : List (String × Value)) :
    (deepMerge target source).filter (taken ·.1) =
      deepMerge (target.filter (taken ·.1)) (source.filter (taken ·.1)) := by
  induction source generalizing target with
  | nil => rw [List.filter_nil, deepMerge_nil, deepMerge_nil]
  | cons e rest ih =>
    obtain ⟨key, value⟩ := e
    rw [deepMerge_cons, ih, set_filter]
    by_cases ht : taken key = true
    · have hs : ((key, value) :: rest).filter (taken ·.1) =
          (key, value) :: rest.filter (taken ·.1) := List.filter_cons_of_pos ht
      rw [if_pos ht, hs, deepMerge_cons, get?_filter_of_taken ht]
    · have hs : ((key, value) :: rest).filter (taken ·.1) = rest.filter (taken ·.1) :=
        List.filter_cons_of_neg ht
      rw [if_neg ht, hs]

end Maps

/-! ### When the last value counts -/

namespace Value

theorem distinctKeysBelow_iff {entries : List (String × Value)} :
    distinctKeysBelow entries = true ↔ ∀ e ∈ entries, e.2.distinctKeys = true := by
  induction entries with
  | nil => simp [distinctKeysBelow]
  | cons e rest ih => simp [distinctKeysBelow, ih]

theorem distinctKeys_mapping {entries : List (String × Value)} :
    (Value.mapping entries).distinctKeys = true ↔
      (Entries.keys entries).Nodup ∧ ∀ e ∈ entries, e.2.distinctKeys = true := by
  simp [distinctKeys, distinctKeysBelow_iff]

theorem distinctKeys_of_get? {entries : List (String × Value)} {key : String} {value : Value}
    (h : (Value.mapping entries).distinctKeys = true) (hg : Entries.get? key entries = some value) :
    value.distinctKeys = true :=
  (distinctKeys_mapping.mp h).2 _ (Entries.mem_of_get? hg)

theorem distinctKeys_entries {value : Value} (h : value.distinctKeys = true) :
    (mapping value.entries).distinctKeys = true := by
  cases value with
  | mapping _ => exact h
  | _ => rfl

theorem nodup_keys_entries {value : Value} (h : value.distinctKeys = true) :
    (Entries.keys value.entries).Nodup :=
  (distinctKeys_mapping.mp (distinctKeys_entries h)).1

theorem distinctKeys_of_mem {value own : Value} {key : String} (h : value.distinctKeys = true)
    (hm : (key, own) ∈ value.entries) : own.distinctKeys = true :=
  (distinctKeys_mapping.mp (distinctKeys_entries h)).2 _ hm

/-- A value apart from what it has under keys. -/
def face : Value → Value
  | .mapping _ => .mapping []
  | value => value

/-- Equality of values, in which the order of keys does not matter: there is the same at the end of
every path of keys. -/
def SameAs (value other : Value) : Prop :=
  ∀ path, (value.at? path).map face = (other.at? path).map face

/-- A value has all keys that another one has, wherever both have mappings. -/
def Covers (value other : Value) : Prop :=
  ∀ path own others, value.at? path = some (.mapping own) →
    other.at? path = some (.mapping others) →
    ∀ key ∈ Entries.keys others, key ∈ Entries.keys own

theorem at?_cons (key : String) (path : List String) (entries : List (String × Value)) :
    (Value.mapping entries).at? (key :: path) = (Entries.get? key entries).bind (at? path) := rfl

theorem at?_append (path more : List String) (value : Value) :
    value.at? (path ++ more) = (value.at? path).bind (at? more) := by
  induction path generalizing value with
  | nil => rfl
  | cons key path ih =>
    change (Entries.get? key value.entries).bind (at? (path ++ more)) =
      ((Entries.get? key value.entries).bind (at? path)).bind (at? more)
    cases Entries.get? key value.entries with
    | none => rfl
    | some own => exact ih own

theorem Covers.below {source target : List (String × Value)} {key : String} {own theirs : Value}
    (h : Covers (.mapping source) (.mapping target)) (hs : Entries.get? key source = some own)
    (ht : Entries.get? key target = some theirs) : own.Covers theirs := by
  intro path mine others hm ho
  have hmine : (Value.mapping source).at? (key :: path) = some (.mapping mine) := by
    rw [at?_cons, hs]
    exact hm
  have hothers : (Value.mapping target).at? (key :: path) = some (.mapping others) := by
    rw [at?_cons, ht]
    exact ho
  exact h (key :: path) mine others hmine hothers

theorem at?_of_not_mapping {value : Value} (h : value.isMapping = false) (key : String)
    (path : List String) : value.at? (key :: path) = none := by
  cases value with
  | mapping _ => simp [isMapping] at h
  | _ => rfl

theorem at?_over_cons {source : List (String × Value)} (hnd : (Entries.keys source).Nodup)
    (current : Option Value) (key : String) (path : List String) :
    ((mapping source).over current).at? (key :: path) =
      match Entries.get? key source with
      | some own => (own.over (current.bind (at? [key]))).at? path
      | none => current.bind (at? (key :: path)) := by
  have hbelow : Entries.get? key ((current.map entries).getD []) = current.bind (at? [key]) := by
    cases current with
    | none => rfl
    | some known => exact (Option.bind_fun_some _).symm
  have hpath : (current.bind (at? [key])).bind (at? path) = current.bind (at? (key :: path)) := by
    cases current with
    | none => rfl
    | some known => exact (at?_append [key] path known).symm
  rw [Value.over, at?_cons, get?_deepMerge hnd, hbelow]
  cases Entries.get? key source with
  | none => exact hpath
  | some own => rfl

/-- At the end of a path there is the later value, put over the earlier one. -/
theorem at?_over_of_some {path : List String} {value own : Value} (hd : value.distinctKeys = true)
    (hv : value.at? path = some own) (current : Option Value) :
    (value.over current).at? path = some (own.over (current.bind (at? path))) := by
  induction path generalizing value current with
  | nil =>
    obtain rfl : value = own := Option.some.inj hv
    exact congrArg (some <| value.over ·) (Option.bind_fun_some _).symm
  | cons key path ih =>
    cases value with
    | mapping source =>
      obtain ⟨below, hbelow, hpath⟩ := Option.bind_eq_some_iff.mp hv
      have hbelow : Entries.get? key source = some below := hbelow
      have hnext := ih (distinctKeys_of_get? hd hbelow) hpath (current.bind (at? [key]))
      rw [at?_over_cons (distinctKeys_mapping.mp hd).1, hbelow]
      refine hnext.trans (congrArg (some <| own.over ·) ?_)
      cases current with
      | none => rfl
      | some known => exact (at?_append [key] path known).symm
    | _ => exact absurd hv (by rw [at?_of_not_mapping rfl]; simp)

/-- What is put over another value comes out as it is exactly if it has all keys of the other. -/
theorem over_sameAs_of_covers {value : Value} (hd : value.distinctKeys = true)
    {current : Option Value} (hc : ∀ other, current = some other → value.Covers other) :
    (value.over current).SameAs value := by
  intro path
  induction path generalizing value current with
  | nil => cases value <;> rfl
  | cons key path ih =>
    cases hm : value.isMapping with
    | false => rw [over_of_not_mapping hm]
    | true =>
      obtain ⟨source, rfl⟩ : ∃ source, value = .mapping source := by
        cases value with
        | mapping source => exact ⟨source, rfl⟩
        | _ => simp [isMapping] at hm
      let target := (current.map entries).getD []
      have hnd := (distinctKeys_mapping.mp hd).1
      have hget := get?_deepMerge hnd target key
      have hcovers : target = [] ∨ Covers (.mapping source) (.mapping target) := by
        cases hcur : current with
        | none => exact .inl (by simp [target, hcur])
        | some other =>
          have hother := hc other hcur
          cases other with
          | mapping others => exact .inr (by simpa [target, hcur, entries] using hother)
          | _ => exact .inl (by simp [target, hcur, entries])
      change ((Entries.get? key (deepMerge target source)).bind (at? path)).map face =
        ((Entries.get? key source).bind (at? path)).map face
      cases hs : Entries.get? key source with
      | some own =>
        rw [hget, hs, Option.map_some, Option.some_or]
        refine ih (distinctKeys_of_get? hd hs) fun other ho => ?_
        rcases hcovers with htarget | hcovers
        · simp [htarget, Entries.get?] at ho
        · exact hcovers.below hs ho
      | none =>
        have htarget : Entries.get? key target = none := by
          rcases hcovers with htarget | hcovers
          · simp [htarget, Entries.get?]
          · refine Entries.get?_eq_none_iff.mpr fun hk => ?_
            exact Entries.get?_eq_none_iff.mp hs (hcovers [] source target rfl rfl key hk)
        rw [hget, hs, htarget]
        rfl

theorem covers_of_over_sameAs {value other : Value} (hd : value.distinctKeys = true)
    (h : (value.over (some other)).SameAs value) : value.Covers other := by
  intro path own others hv ho key hk
  -- The merged mapping has the key, so the path can be followed by it in `value` as well.
  have hmerged : (value.over (some other)).at? path = some (.mapping (deepMerge others own)) := by
    rw [at?_over_of_some hd hv, Option.bind_some, ho]
    rfl
  have hkey := h (path ++ [key])
  rw [at?_append, at?_append, hmerged, hv, Option.bind_some, Option.bind_some, at?_key,
    at?_key] at hkey
  have hmem : key ∈ Entries.keys (deepMerge others own) := mem_keys_deepMerge.mpr (.inl hk)
  by_contra hno
  rw [Entries.get?_eq_none_iff.mpr hno, Option.map_none, Option.map_eq_none_iff] at hkey
  exact Entries.get?_eq_none_iff.mp hkey hmem

theorem over_sameAs_iff {value : Value} (hd : value.distinctKeys = true) (current : Option Value) :
    (value.over current).SameAs value ↔ ∀ other, current = some other → value.Covers other := by
  constructor
  · rintro h other rfl
    exact covers_of_over_sameAs hd h
  · exact over_sameAs_of_covers hd

theorem sameAs_iff_of_not_mapping {value : Value} (h : value.isMapping = false) {other : Value} :
    value.SameAs other ↔ other = value := by
  constructor
  · intro hsame
    have hface : value.face = other.face := Option.some.inj (hsame [])
    cases value with
    | mapping _ => simp [isMapping] at h
    | _ => cases other <;> simp_all [face]
  · rintro rfl
    exact fun _ => rfl

theorem layered_concat (values : List Value) (last : Value) :
    layered (values ++ [last]) = some (last.over (layered values)) := by
  simp [layered]

end Value

end SchemaLoom
