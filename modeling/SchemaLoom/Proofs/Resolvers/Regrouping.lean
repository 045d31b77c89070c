import SchemaLoom.Proofs.Resolvers.InTurn
import SchemaLoom.Proofs.Resolvers.Paths

/-! The laws of merging maps. An empty map and a map merged into itself change nothing. Maps may be
merged in any grouping, unless a mapping that something else has replaced comes back. -/

namespace SchemaLoom

namespace Value

theorem sizeOf_lt_of_get? {value own : Value} {key : String}
    (h : Entries.get? key value.entries = some own) : sizeOf own < sizeOf value := by
  cases value with
  | mapping source =>
    have hm : (key, own) ∈ source := Entries.mem_of_get? h
    have hlt := List.sizeOf_lt_of_mem hm
    simp only [Prod.mk.sizeOf_spec, mapping.sizeOf_spec] at hlt ⊢
    omega
  | _ => simp [entries, Entries.get?] at h

/-- What passes from all that stands under the keys of a value to the value itself holds of every
value. -/
@[elab_as_elim]
theorem induction_below {P : Value → Prop} (value : Value)
    (step : ∀ value, (∀ key own, Entries.get? key value.entries = some own → P own) → P value) :
    P value :=
  step value fun _ own _ => induction_below own step
termination_by sizeOf value
decreasing_by exact sizeOf_lt_of_get? ‹_›

theorem isMapping_over (value : Value) (current : Option Value) :
    (value.over current).isMapping = value.isMapping := by
  cases value <;> rfl

theorem distinctKeys_known {current : Option Value}
    (h : ∀ known, current = some known → known.distinctKeys = true) :
    (mapping ((current.map entries).getD [])).distinctKeys = true := by
  cases hc : current with
  | none => rfl
  | some known => exact distinctKeys_entries (h known hc)

theorem exists_mapping_of_get? {current : Option Value} {key : String} {value : Value}
    (h : Entries.get? key ((current.map entries).getD []) = some value) :
    ∃ known, current = some (mapping known) ∧ Entries.get? key known = some value := by
  cases current with
  | none => simp [Entries.get?] at h
  | some known =>
    cases known with
    | mapping own => exact ⟨own, rfl, h⟩
    | _ => simp [entries, Entries.get?] at h

theorem distinctKeys_over {value : Value} {current : Option Value}
    (hv : value.distinctKeys = true)
    (hc : ∀ known, current = some known → known.distinctKeys = true) :
    (value.over current).distinctKeys = true := by
  induction value using induction_below generalizing current with
  | step value ih =>
    cases value with
    | mapping source =>
      let target := (current.map entries).getD []
      have hnd := (distinctKeys_mapping.mp hv).1
      have ht : (mapping target).distinctKeys = true := distinctKeys_known hc
      have hnd' := nodup_keys_deepMerge (distinctKeys_mapping.mp ht).1 source
      refine distinctKeys_mapping.mpr ⟨hnd', fun e he => ?_⟩
      have hget := Entries.get?_of_mem hnd' he
      rw [get?_deepMerge hnd] at hget
      cases hs : Entries.get? e.1 source with
      | none => exact distinctKeys_of_get? ht (by simpa [hs] using hget)
      | some own =>
        have heq : own.over (Entries.get? e.1 target) = e.2 := by simpa [hs] using hget
        rw [← heq]
        apply ih e.1 own hs (distinctKeys_of_get? hv hs)
        exact fun known hk => distinctKeys_of_get? ht hk
    | _ => rfl

/-- Whether it is a mapping that stands at a path, if anything does. -/
def mapped? (path : List String) (value : Value) : Option Bool := (value.at? path).map isMapping

theorem exists_of_mapped?_cons {entries : List (String × Value)} {key : String}
    {path : List String} {kind : Bool}
    (h : (mapping entries).mapped? (key :: path) = some kind) :
    ∃ value, (key, value) ∈ entries ∧ value.mapped? path = some kind := by
  rw [mapped?, at?_cons] at h
  cases hg : Entries.get? key entries with
  | none => simp [hg] at h
  | some value =>
    rw [hg] at h
    exact ⟨value, Entries.mem_of_get? hg, h⟩

theorem mapped?_ne_of_not_mapping {value : Value} (h : value.isMapping = false)
    (path : List String) : value.mapped? path ≠ some true := by
  cases path with
  | nil => simp [mapped?, at?, h]
  | cons key path => simp [mapped?, at?_of_not_mapping h]

/-- A mapping stands at a path in the first value, something else in the second one, and again a
mapping in the third. -/
def ComesBack (first second third : Value) (path : List String) : Prop :=
  first.mapped? path = some true ∧ second.mapped? path = some false ∧
    third.mapped? path = some true

/-- A map comes out as it is if it brings all keys and keeps what stands under them. -/
theorem deepMerge_eq_source {target source : List (String × Value)}
    (hnd : (Entries.keys source).Nodup)
    (hkeys : Entries.keys (deepMerge target source) = Entries.keys source)
    (hover : ∀ key own, Entries.get? key source = some own →
      own.over (Entries.get? key target) = own) : deepMerge target source = source := by
  refine Entries.ext (hkeys ▸ hnd) hkeys fun k => ?_
  cases hs : Entries.get? k source with
  | none =>
    have hfresh : k ∉ Entries.keys source := Entries.get?_eq_none_iff.mp hs
    exact Entries.get?_eq_none_iff.mpr (hkeys ▸ hfresh)
  | some own =>
    have hown := hover k own hs
    rw [get?_deepMerge hnd, hs, Option.map_some, Option.some_or, hown]

theorem over_none {value : Value} (hd : value.distinctKeys = true) : value.over none = value := by
  induction value using induction_below with
  | step value ih =>
    cases value with
    | mapping source =>
      have hnd := (distinctKeys_mapping.mp hd).1
      have hkeys : Entries.keys (deepMerge [] source) = Entries.keys source := by
        simp [keys_deepMerge hnd]
      apply congrArg mapping
      exact deepMerge_eq_source hnd hkeys fun key own h => ih key own h (distinctKeys_of_get? hd h)
    | _ => rfl

theorem over_self {value : Value} (hd : value.distinctKeys = true) :
    value.over (some value) = value := by
  induction value using induction_below with
  | step value ih =>
    cases value with
    | mapping source =>
      have hnd := (distinctKeys_mapping.mp hd).1
      have hkeys : Entries.keys (deepMerge source source) = Entries.keys source := by
        simp [keys_deepMerge hnd]
      apply congrArg mapping
      refine deepMerge_eq_source hnd hkeys fun key own h => ?_
      show own.over (Entries.get? key source) = own
      rw [h]
      exact ih key own h (distinctKeys_of_get? hd h)
    | _ => rfl

theorem ComesBack.below {a b c : List (String × Value)} {key : String} {first second third : Value}
    {path : List String} (h : ComesBack first second third path)
    (ha : Entries.get? key a = some first) (hb : Entries.get? key b = some second)
    (hc : Entries.get? key c = some third) :
    ComesBack (mapping a) (mapping b) (mapping c) (key :: path) := by
  simp only [ComesBack, mapped?, at?_cons, ha, hb, hc]
  exact h

theorem keys_deepMerge_deepMerge {a b c : List (String × Value)}
    (hb : (Entries.keys b).Nodup) (hc : (Entries.keys c).Nodup) :
    Entries.keys (deepMerge (deepMerge a b) c) = Entries.keys (deepMerge a (deepMerge b c)) := by
  have hbc := nodup_keys_deepMerge hb c
  rw [keys_deepMerge hc, keys_deepMerge hb, keys_deepMerge hbc, keys_deepMerge hc,
    List.filter_append, List.append_assoc, List.filter_filter]
  have hnew : ∀ k, decide (k ∉ Entries.keys a ++ (Entries.keys b).filter (· ∉ Entries.keys a)) =
      (decide (k ∉ Entries.keys a) && decide (k ∉ Entries.keys b)) := by
    intro k
    by_cases hk : k ∈ Entries.keys a <;> simp [hk]
  simp only [hnew]

/-- Three maps may be merged in either grouping if the values may that stand under one key of the
last two. -/
theorem deepMerge_assoc_of_over {a b c : List (String × Value)} (ha : (Entries.keys a).Nodup)
    (hb : (Entries.keys b).Nodup) (hc : (mapping c).distinctKeys = true)
    (hover : ∀ key second third, Entries.get? key b = some second →
      Entries.get? key c = some third →
        third.over (some (second.over (Entries.get? key a))) =
          (third.over (some second)).over (Entries.get? key a)) :
    deepMerge (deepMerge a b) c = deepMerge a (deepMerge b c) := by
  have hcn := (distinctKeys_mapping.mp hc).1
  have hnd := nodup_keys_deepMerge (nodup_keys_deepMerge ha b) c
  refine Entries.ext hnd (keys_deepMerge_deepMerge hb hcn) fun key => ?_
  rw [get?_deepMerge hcn, get?_deepMerge hb, get?_deepMerge (nodup_keys_deepMerge hb c),
    get?_deepMerge hcn]
  cases hthird : Entries.get? key c with
  | none => rfl
  | some third =>
    cases hsecond : Entries.get? key b with
    | none =>
      show some (third.over (Entries.get? key a)) =
        some ((third.over none).over (Entries.get? key a))
      rw [over_none (distinctKeys_of_get? hc hthird)]
    | some second => exact congrArg some (hover key second third hsecond hthird)

/-- Three values may be put over one another in any grouping, unless a mapping comes back in the
third one. -/
theorem over_over {current : Option Value} {second third : Value}
    (hfirst : ∀ first, current = some first → first.distinctKeys = true)
    (hsecond : second.distinctKeys = true) (hthird : third.distinctKeys = true)
    (h : ∀ first, current = some first → ∀ path, ¬ ComesBack first second third path) :
    third.over (some (second.over current)) = (third.over (some second)).over current := by
  induction third using induction_below generalizing current second with
  | step third ih =>
    cases third with
    | mapping c =>
      let a := (current.map entries).getD []
      have ha : (mapping a).distinctKeys = true := distinctKeys_known hfirst
      cases second with
      | mapping b =>
        have hb := (distinctKeys_mapping.mp hsecond).1
        show mapping (deepMerge (deepMerge a b) c) = mapping (deepMerge a (deepMerge b c))
        apply congrArg mapping
        refine deepMerge_assoc_of_over (distinctKeys_mapping.mp ha).1 hb hthird
          fun key y z hy hz => ?_
        apply ih key z hz (fun x hx => distinctKeys_of_get? ha hx)
          (distinctKeys_of_get? hsecond hy) (distinctKeys_of_get? hthird hz)
        intro x hx path hback
        obtain ⟨known, hcur, hown⟩ := exists_mapping_of_get? hx
        exact h _ hcur (key :: path) (hback.below hown hy hz)
      | _ =>
        -- There is no mapping before the third value, so it is not merged with anything.
        have hown : mapping (deepMerge [] c) = mapping c := over_none hthird
        have hempty : a = [] := by
          cases hcur : current with
          | none => simp [a, hcur]
          | some known =>
            cases known with
            | mapping own => exact absurd ⟨rfl, rfl, rfl⟩ (h _ hcur [])
            | _ => simp [a, hcur, entries]
        show mapping (deepMerge [] c) = mapping (deepMerge a (deepMerge [] c))
        rw [hempty, Value.mapping.inj hown, hown]
    | _ => rfl

/-- Whatever stands at a path after merging stood there in one of the two maps, as a mapping or not.
-/
theorem mapped?_of_deepMerge {target source : List (String × Value)} {path : List String}
    {kind : Bool} (hs : (mapping source).distinctKeys = true)
    (h : (mapping (deepMerge target source)).mapped? path = some kind) :
    (mapping target).mapped? path = some kind ∨ (mapping source).mapped? path = some kind := by
  cases hv : (mapping source).at? path with
  | some own =>
    have hat : (mapping (deepMerge target source)).at? path = _ :=
      at?_over_of_some hs hv (some (mapping target))
    right
    rwa [mapped?, hat, Option.map_some, isMapping_over, ← Option.map_some, ← hv] at h
  | none =>
    obtain ⟨hstops, hopen⟩ := at?_over_of_none hs hv (some (mapping target))
    by_cases hstop : (mapping source).Stops path
    · have hat : (mapping (deepMerge target source)).at? path = none := hstops hstop
      simp [mapped?, hat] at h
    · have hat : (mapping (deepMerge target source)).at? path = (mapping target).at? path :=
        hopen hstop
      left
      rwa [mapped?, hat] at h

end Value

open Value

section Maps

variable {a b c : List (String × Value)} {maps left right : List (List (String × Value))}

theorem deepMerge_nil_left (h : (mapping a).distinctKeys = true) : deepMerge [] a = a :=
  Value.mapping.inj (over_none h)

theorem deepMerge_self (h : (mapping a).distinctKeys = true) : deepMerge a a = a :=
  Value.mapping.inj (over_self h)

theorem deepMerge_assoc (ha : (mapping a).distinctKeys = true)
    (hb : (mapping b).distinctKeys = true) (hc : (mapping c).distinctKeys = true)
    (h : ∀ path, ¬ ComesBack (mapping a) (mapping b) (mapping c) path) :
    deepMerge (deepMerge a b) c = deepMerge a (deepMerge b c) := by
  have hover : (mapping c).over (some ((mapping b).over (some (mapping a)))) =
      ((mapping c).over (some (mapping b))).over (some (mapping a)) := by
    apply over_over _ hb hc
    · rintro first ⟨⟩
      exact h
    · rintro first ⟨⟩
      exact ha
  exact Value.mapping.inj hover

/-- In no map of a list does a mapping come back that a map before it has replaced. -/
def NeverComesBack (maps : List (List (String × Value))) : Prop :=
  ∀ a b c, [a, b, c].Sublist maps → ∀ path, ¬ ComesBack (mapping a) (mapping b) (mapping c) path

theorem NeverComesBack.sublist (h : NeverComesBack maps) (hs : left.Sublist maps) :
    NeverComesBack left :=
  fun a b c habc => h a b c (habc.trans hs)

theorem neverComesBack_three_iff :
    NeverComesBack [a, b, c] ↔
      ∀ path, ¬ ComesBack (mapping a) (mapping b) (mapping c) path := by
  constructor
  · exact fun h => h a b c (List.Sublist.refl _)
  · intro h a' b' c' hs
    obtain ⟨rfl, rfl, rfl, -⟩ : a' = a ∧ b' = b ∧ c' = c ∧ True := by
      simpa using hs.eq_of_length rfl
    exact h

theorem foldl_deepMerge_concat (m : List (String × Value)) :
    (maps ++ [m]).foldl deepMerge [] = deepMerge (maps.foldl deepMerge []) m := by
  rw [List.foldl_append, List.foldl_cons, List.foldl_nil]

theorem distinctKeys_foldl_deepMerge (h : ∀ m ∈ maps, (mapping m).distinctKeys = true) :
    (mapping (maps.foldl deepMerge [])).distinctKeys = true := by
  induction maps using List.reverseRecOn with
  | nil => rfl
  | append_singleton maps m ih =>
    have hmaps := ih fun m' hm' => h m' (List.mem_append_left _ hm')
    have hknown : ∀ known, some (mapping (maps.foldl deepMerge [])) = some known →
        known.distinctKeys = true := by
      rintro known ⟨⟩
      exact hmaps
    rw [foldl_deepMerge_concat]
    exact distinctKeys_over (h m (by simp)) hknown

theorem mapped?_of_foldl_deepMerge (h : ∀ m ∈ maps, (mapping m).distinctKeys = true)
    {path : List String} {kind : Bool} (hp : path ≠ [])
    (hk : (mapping (maps.foldl deepMerge [])).mapped? path = some kind) :
    ∃ m ∈ maps, (mapping m).mapped? path = some kind := by
  induction maps using List.reverseRecOn with
  | nil =>
    cases path with
    | nil => exact absurd rfl hp
    | cons key path => simp [mapped?, at?_cons, Entries.get?] at hk
  | append_singleton maps m ih =>
    rw [foldl_deepMerge_concat] at hk
    rcases mapped?_of_deepMerge (h m (by simp)) hk with hk | hk
    · obtain ⟨m', hm', hk'⟩ := ih (fun m' hm' => h m' (List.mem_append_left _ hm')) hk
      exact ⟨m', List.mem_append_left _ hm', hk'⟩
    · exact ⟨m, by simp, hk⟩

/-- Merging the maps of two parts of a list, and then what comes of them, is merging them all. -/
theorem deepMerge_foldl_foldl
    (hdistinct : ∀ m ∈ left ++ right, (mapping m).distinctKeys = true)
    (h : NeverComesBack (left ++ right)) :
    deepMerge (left.foldl deepMerge []) (right.foldl deepMerge []) =
      (left ++ right).foldl deepMerge [] := by
  induction right using List.reverseRecOn with
  | nil => simp
  | append_singleton right m ih =>
    rw [← List.append_assoc] at hdistinct h ⊢
    have hbefore : ∀ m' ∈ left ++ right, (mapping m').distinctKeys = true :=
      fun m' hm' => hdistinct m' (List.mem_append_left _ hm')
    have hleft := fun m' hm' => hbefore m' (List.mem_append_left right hm')
    have hright := fun m' hm' => hbefore m' (List.mem_append_right left hm')
    have hback : ∀ path, ¬ ComesBack (mapping (left.foldl deepMerge []))
        (mapping (right.foldl deepMerge [])) (mapping m) path := by
      rintro path ⟨hx, hy, hz⟩
      have hp : path ≠ [] := by
        rintro rfl
        simp [mapped?, at?, isMapping] at hy
      -- What the merged maps have at the path comes from three of the maps, in this order.
      obtain ⟨x, hxm, hx⟩ := mapped?_of_foldl_deepMerge hleft hp hx
      obtain ⟨y, hym, hy⟩ := mapped?_of_foldl_deepMerge hright hp hy
      have hxy : [x, y].Sublist (left ++ right) :=
        (List.singleton_sublist.mpr hxm).append (List.singleton_sublist.mpr hym)
      exact h x y m (hxy.append (List.Sublist.refl [m])) path ⟨hx, hy, hz⟩
    have hassoc := deepMerge_assoc (distinctKeys_foldl_deepMerge hleft)
      (distinctKeys_foldl_deepMerge hright) (hdistinct m (by simp)) hback
    have hrest := ih hbefore (h.sublist (List.sublist_append_left ..))
    rw [foldl_deepMerge_concat, foldl_deepMerge_concat, ← hassoc, hrest]

end Maps

/-- Maps that are merged in groups, which may be made of groups in turn. -/
inductive Grouping where
  | none
  | one (map : List (String × Value))
  | both (first second : Grouping)

namespace Grouping

/-- The maps of all groups, in their order. -/
def maps : Grouping → List (List (String × Value))
  | none => []
  | one map => [map]
  | both first second => first.maps ++ second.maps

/-- Merge each group by itself, and then what has come of the groups. -/
def merged : Grouping → List (String × Value)
  | none => []
  | one map => map
  | both first second => deepMerge first.merged second.merged

theorem merged_eq_foldl {g : Grouping} (hdistinct : ∀ m ∈ g.maps, (mapping m).distinctKeys = true)
    (h : NeverComesBack g.maps) : g.merged = g.maps.foldl deepMerge [] := by
  induction g with
  | none => rfl
  | one map => exact (deepMerge_nil_left (hdistinct map (List.mem_singleton_self map))).symm
  | both first second ihf ihs =>
    have hf := ihf (fun m hm => hdistinct m (List.mem_append_left _ hm))
      (h.sublist (List.sublist_append_left ..))
    have hs := ihs (fun m hm => hdistinct m (List.mem_append_right _ hm))
      (h.sublist (List.sublist_append_right ..))
    calc deepMerge first.merged second.merged
        = deepMerge (first.maps.foldl deepMerge []) (second.maps.foldl deepMerge []) := by
          rw [hf, hs]
      _ = (first.maps ++ second.maps).foldl deepMerge [] := deepMerge_foldl_foldl hdistinct h

end Grouping

/-- Merging with nothing and merging with itself leave a map as it is. Three maps may be merged in
either grouping, and so may the maps of any number of modules, as long as no mapping comes back where
something else has replaced it. -/
theorem deepMerge_regroups :
    (∀ a : List (String × Value), (mapping a).distinctKeys = true →
      deepMerge [] a = a ∧ deepMerge a [] = a ∧ deepMerge a a = a) ∧
    (∀ a b c : List (String × Value), (mapping a).distinctKeys = true →
      (mapping b).distinctKeys = true → (mapping c).distinctKeys = true →
      (∀ path, ¬ ComesBack (mapping a) (mapping b) (mapping c) path) →
        deepMerge (deepMerge a b) c = deepMerge a (deepMerge b c)) ∧
    ∀ (modules : List Module) (g : Grouping), modules.mapM Module.entries = .ok g.maps →
      (∀ m ∈ g.maps, (mapping m).distinctKeys = true) → NeverComesBack g.maps →
        mergedResolvers modules = .ok g.merged := by
  refine ⟨fun a ha => ⟨deepMerge_nil_left ha, deepMerge_nil a, deepMerge_self ha⟩,
    fun a b c ha hb hc h => deepMerge_assoc ha hb hc h, fun modules g hmaps hdistinct h => ?_⟩
  rw [Grouping.merged_eq_foldl hdistinct h]
  exact Resolver.mergedResolvers_eq hmaps

/-- A mapping that a function replaces, and that does not come back, beside mappings on two levels
that are merged. -/
theorem deepMerge_regroups_twoLevels :
    let a : List (String × Value) := [("Query", .mapping [("user", .mapping [("resolve",
      .function "user")]), ("tick", .function "tick")]), ("Color", .mapping [("RED", .integer 1)])]
    let b : List (String × Value) := [("Color", .text "none"), ("Query", .mapping [("user",
      .function "user"), ("node", .function "node")])]
    let c : List (String × Value) := [("Date", .function "iso"), ("Query", .mapping [("tick",
      .function "tock"), ("user", .function "me")])]
    let modules : List Module := [⟨⟨[]⟩, .mapping a⟩, ⟨⟨[]⟩, .mapping b⟩, ⟨⟨[]⟩, .mapping c⟩]
    let g : Grouping := .both (.one a) (.both (.both (.one b) .none) (.one c))
    deepMerge [] a = a ∧ deepMerge a a = a ∧
      deepMerge (deepMerge a b) c = deepMerge a (deepMerge b c) ∧
      mergedResolvers modules = .ok g.merged := by
  intro a b c modules g
  have ha : (mapping a).distinctKeys = true := by decide
  have hb : (mapping b).distinctKeys = true := by decide
  have hc : (mapping c).distinctKeys = true := by decide
  have hmaps : ∀ m ∈ g.maps, (mapping m).distinctKeys = true := by decide
  -- The third map has mappings at two paths only, and there the second one has mappings too.
  have hback : ∀ path, ¬ ComesBack (mapping a) (mapping b) (mapping c) path := by
    rintro path ⟨-, hy, hz⟩
    rcases path with _ | ⟨key, path⟩
    · cases hy
    · obtain ⟨value, hm, hz⟩ := exists_of_mapped?_cons hz
      simp only [c, List.mem_cons, Prod.mk.injEq, List.not_mem_nil, or_false] at hm
      rcases hm with ⟨rfl, rfl⟩ | ⟨rfl, rfl⟩
      · exact mapped?_ne_of_not_mapping rfl path hz
      · rcases path with _ | ⟨key, path⟩
        · cases hy
        · obtain ⟨value, hm, hz⟩ := exists_of_mapped?_cons hz
          simp only [List.mem_cons, Prod.mk.injEq, List.not_mem_nil, or_false] at hm
          rcases hm with ⟨rfl, rfl⟩ | ⟨rfl, rfl⟩ <;> exact mapped?_ne_of_not_mapping rfl path hz
  obtain ⟨hunits, hassoc, hgroups⟩ := deepMerge_regroups
  exact ⟨(hunits a ha).1, (hunits a ha).2.2, hassoc a b c ha hb hc hback,
    hgroups modules g rfl hmaps (neverComesBack_three_iff.mpr hback)⟩

/-- Where a mapping comes back, it depends on the grouping what it brings with it. -/
example :
    let a : List (String × Value) := [("Query", .mapping [("user", .function "user")])]
    let b : List (String × Value) := [("Query", .null)]
    let c : List (String × Value) := [("Query", .mapping [("node", .function "node")])]
    (mapping (deepMerge (deepMerge a b) c)).keysAt ["Query"] = ["node"] ∧
      (mapping (deepMerge a (deepMerge b c))).keysAt ["Query"] = ["user", "node"] := by
  constructor <;> cbv

end SchemaLoom
