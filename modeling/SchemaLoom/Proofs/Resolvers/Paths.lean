import SchemaLoom.Proofs.Resolvers.Layers

/-! What merged maps hold at each path of keys, and the order of their keys on every level. -/

namespace SchemaLoom

namespace Value

/-- Something that is no mapping stands on the way to the end of a path. -/
def Stops (value : Value) (path : List String) : Prop :=
  ∃ way own, way <+: path ∧ way ≠ path ∧ value.at? way = some own ∧ own.isMapping = false

theorem stops_of_not_mapping {value : Value} (h : value.isMapping = false) {path : List String}
    (hp : path ≠ []) : value.Stops path :=
  ⟨[], value, List.nil_prefix, hp.symm, rfl, h⟩

/-- Below a key, a path is stopped by what stands under that key. -/
theorem stops_cons {entries : List (String × Value)} {key : String} {path : List String} :
    (mapping entries).Stops (key :: path) ↔
      ∃ below, Entries.get? key entries = some below ∧ below.Stops path := by
  constructor
  · rintro ⟨way, own, hway, hne, hat, hown⟩
    cases way with
    | nil =>
      obtain rfl : mapping entries = own := Option.some.inj hat
      simp [isMapping] at hown
    | cons first rest =>
      obtain ⟨rfl, hrest⟩ := List.cons_prefix_cons.mp hway
      obtain ⟨below, hbelow, hat⟩ := Option.bind_eq_some_iff.mp hat
      exact ⟨below, hbelow, rest, own, hrest, fun h => hne (h ▸ rfl), hat, hown⟩
  · rintro ⟨below, hbelow, way, own, hway, hne, hat, hown⟩
    refine ⟨key :: way, own, List.cons_prefix_cons.mpr ⟨rfl, hway⟩, by simpa using hne, ?_, hown⟩
    rw [at?_cons, hbelow]
    exact hat

theorem not_stops_of_some {path : List String} {value own : Value} (h : value.at? path = some own) :
    ¬ value.Stops path := by
  rintro ⟨way, other, ⟨more, rfl⟩, hne, hat, hother⟩
  rw [at?_append, hat, Option.bind_some] at h
  cases more with
  | nil => simp at hne
  | cons key more => simp [at?_of_not_mapping hother] at h

/-- Where the later value has nothing, there is what the earlier one has, unless the later one has
something on the way that is no mapping. -/
theorem at?_over_of_none {path : List String} {value : Value} (hd : value.distinctKeys = true)
    (hv : value.at? path = none) (current : Option Value) :
    (value.Stops path → (value.over current).at? path = none) ∧
      (¬ value.Stops path → (value.over current).at? path = current.bind (at? path)) := by
  -- Below each key of the path, what the later value has there is put over what the earlier one has.
  induction path generalizing value current with
  | nil => cases hv
  | cons key path ih =>
    cases hm : value.isMapping with
    | false =>
      rw [over_of_not_mapping hm]
      exact ⟨fun _ => hv, fun h => absurd (stops_of_not_mapping hm (by simp)) h⟩
    | true =>
      obtain ⟨source, rfl⟩ : ∃ source, value = .mapping source := by
        cases value with
        | mapping source => exact ⟨source, rfl⟩
        | _ => simp [isMapping] at hm
      rw [at?_over_cons (distinctKeys_mapping.mp hd).1, stops_cons]
      cases hs : Entries.get? key source with
      | none => simp
      | some below =>
        have hbelow : below.at? path = none := by simpa [at?_cons, hs] using hv
        obtain ⟨hstops, hopen⟩ := ih (distinctKeys_of_get? hd hs) hbelow (current.bind (at? [key]))
        refine ⟨?_, fun h => ?_⟩
        · rintro ⟨_, heq, h⟩
          exact hstops (Option.some.inj heq ▸ h)
        · refine (hopen fun hb => h ⟨below, rfl, hb⟩).trans ?_
          cases current with
          | none => rfl
          | some known => exact (at?_append [key] path known).symm

theorem distinctKeys_at? {path : List String} {value own : Value} (hd : value.distinctKeys = true)
    (h : value.at? path = some own) : own.distinctKeys = true := by
  induction path generalizing value with
  | nil =>
    obtain rfl : value = own := Option.some.inj h
    exact hd
  | cons key path ih =>
    cases value with
    | mapping source =>
      obtain ⟨below, hbelow, hpath⟩ := Option.bind_eq_some_iff.mp h
      exact ih (distinctKeys_of_get? hd hbelow) hpath
    | _ => exact absurd h (by rw [at?_of_not_mapping rfl]; simp)

/-- The keys of the mapping at a path. -/
def keysAt (value : Value) (path : List String) : List String :=
  Entries.keys (((value.at? path).map entries).getD [])

theorem nodup_keysAt {value : Value} (hd : value.distinctKeys = true) (path : List String) :
    (value.keysAt path).Nodup := by
  rw [keysAt]
  cases h : value.at? path with
  | none => simp
  | some own =>
    cases own with
    | mapping entries => exact (distinctKeys_mapping.mp (distinctKeys_at? hd h)).1
    | _ => exact List.nodup_nil

end Value

/-- The known keys keep their order, and the new ones follow in theirs. -/
theorem keys_deepMerge {source : List (String × Value)} (h : (Entries.keys source).Nodup)
    (target : List (String × Value)) :
    Entries.keys (deepMerge target source) =
      Entries.keys target ++ (Entries.keys source).filter (· ∉ Entries.keys target) := by
  induction source generalizing target with
  | nil => simp
  | cons e rest ih =>
    obtain ⟨key, value⟩ := e
    have hd := List.nodup_cons.mp h
    rw [deepMerge_cons, ih hd.2, Entries.keys_set, Entries.keys_cons]
    by_cases hk : key ∈ Entries.keys target
    · simp [hk]
    · have hrest : (Entries.keys rest).filter (· ∉ Entries.keys target ++ [key]) =
          (Entries.keys rest).filter (· ∉ Entries.keys target) := by
        refine List.filter_congr fun k hm => ?_
        have hne : k ≠ key := fun he => hd.1 (he ▸ hm)
        simp [hne]
      simp only [if_neg hk, hrest]
      simp [hk]

open Value in
/-- At each path the merged map has what the later map has there. Where that has nothing, the merged
map has what the earlier one has, unless the later map stops on the way. On each level the keys of
the earlier map come first, each at its place. -/
theorem deepMerge_alongPaths {target source : List (String × Value)}
    (ht : (mapping target).distinctKeys = true) (hs : (mapping source).distinctKeys = true) :
    let earlier := mapping target
    let later := mapping source
    let merged := mapping (deepMerge target source)
    (∀ path, path ≠ [] →
      (∀ value, later.at? path = some value → value.isMapping = false →
        merged.at? path = some value) ∧
      (∀ entries, later.at? path = some (.mapping entries) →
        ∃ own, merged.at? path = some (.mapping own)) ∧
      (later.at? path = none → later.Stops path → merged.at? path = none) ∧
      (later.at? path = none → ¬ later.Stops path → merged.at? path = earlier.at? path)) ∧
    ∀ path own, merged.at? path = some (.mapping own) →
      ¬ later.Stops path ∧ (Entries.keys own).Nodup ∧
        Entries.keys own = earlier.keysAt path ++
          (later.keysAt path).filter (· ∉ earlier.keysAt path) := by
  intro earlier later merged
  have hsome : ∀ path own, later.at? path = some own →
      merged.at? path = some (own.over (earlier.at? path)) :=
    fun path own h => at?_over_of_some hs h (some earlier)
  have hnone : ∀ path, later.at? path = none →
      (later.Stops path → merged.at? path = none) ∧
        (¬ later.Stops path → merged.at? path = earlier.at? path) :=
    fun path h => at?_over_of_none hs h (some earlier)
  refine ⟨fun path _ => ⟨fun value hv hplain => ?_, fun entries hv => ?_, fun hv => (hnone path hv).1,
    fun hv => (hnone path hv).2⟩, fun path own hm => ?_⟩
  · rw [hsome path value hv, over_of_not_mapping hplain]
  · exact ⟨_, hsome path _ hv⟩
  · cases hv : later.at? path with
    | none =>
      obtain ⟨hstops, hopen⟩ := hnone path hv
      have hfree : ¬ later.Stops path := fun h => by simp [hstops h] at hm
      have hearlier : earlier.at? path = some (.mapping own) := (hopen hfree).symm.trans hm
      have hkeys : earlier.keysAt path = Entries.keys own := by simp [keysAt, hearlier, entries]
      have hnew : later.keysAt path = [] := by simp [keysAt, hv]
      refine ⟨hfree, hkeys ▸ nodup_keysAt ht path, ?_⟩
      rw [hkeys, hnew, List.filter_nil, List.append_nil]
    | some value =>
      have hover : value.over (earlier.at? path) = .mapping own :=
        Option.some.inj ((hsome path value hv).symm.trans hm)
      cases value with
      | mapping entries =>
        obtain rfl := Value.mapping.inj hover
        have hnew : later.keysAt path = Entries.keys entries := by
          rw [keysAt, hv]
          rfl
        have hentries := (distinctKeys_mapping.mp (distinctKeys_at? hs hv)).1
        refine ⟨not_stops_of_some hv, nodup_keys_deepMerge (nodup_keysAt ht path) entries, ?_⟩
        rw [keys_deepMerge hentries, hnew, keysAt]
      | _ => cases hover

open Value in
/-- A value that is kept, a mapping that is replaced by a function, and new keys after the known. -/
theorem deepMerge_alongPaths_twoLevels :
    let target : List (String × Value) := [("Query", .mapping [("user", .function "user"),
      ("tick", .mapping [("subscribe", .function "ticks")])]), ("Color", .text "none")]
    let source : List (String × Value) := [("Color", .mapping [("RED", .integer 1)]),
      ("Query", .mapping [("node", .function "node"), ("tick", .function "tick")])]
    let merged := mapping (deepMerge target source)
    merged.at? ["Query", "user"] = some (.function "user") ∧
      merged.at? ["Query", "tick", "subscribe"] = none ∧
      (∃ own, merged.at? ["Color"] = some (.mapping own)) ∧
      ∃ own, merged.at? ["Query"] = some (.mapping own) ∧
        Entries.keys own = ["user", "tick", "node"] := by
  intro target source merged
  have ht : (mapping target).distinctKeys = true := by decide
  have hs : (mapping source).distinctKeys = true := by decide
  obtain ⟨hpaths, hlevels⟩ := deepMerge_alongPaths ht hs
  have huser : ¬ (mapping source).Stops ["Query", "user"] := by
    rw [stops_cons]
    rintro ⟨_, heq, hstops⟩
    obtain rfl := Option.some.inj heq
    obtain ⟨_, hnone, -⟩ := stops_cons.mp hstops
    cases hnone
  have htick : (mapping source).Stops ["Query", "tick", "subscribe"] :=
    ⟨["Query", "tick"], .function "tick", ⟨["subscribe"], rfl⟩, by decide, rfl, rfl⟩
  obtain ⟨own, hown⟩ := (hpaths ["Query"] (by simp)).2.1 _ rfl
  exact ⟨(hpaths ["Query", "user"] (by simp)).2.2.2 rfl huser,
    (hpaths ["Query", "tick", "subscribe"] (by simp)).2.2.1 rfl htick,
    (hpaths ["Color"] (by simp)).2.1 _ rfl, own, hown, (hlevels ["Query"] own hown).2.2⟩

end SchemaLoom
