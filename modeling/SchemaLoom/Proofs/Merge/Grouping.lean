import Mathlib.Data.List.Basic
import Mathlib.Data.List.Induction
import SchemaLoom.Merge

/-! The loop that collects object type definitions by their names. A name has all definitions that
bear it, in their order, and the names stand in the order of their first definitions. -/

namespace SchemaLoom

/-- The definitions of the object type with a name. -/
def objectsNamed (name : Name) (ds : List Definition) : List Definition :=
  ds.filter (Definition.isObjectNamed name)

/-- The names of object types, one for each definition of them. -/
def objectNames (ds : List Definition) : List Name := ds.filterMap Definition.objectName?

theorem objectsNamed_append (name : Name) (ds es : List Definition) :
    objectsNamed name (ds ++ es) = objectsNamed name ds ++ objectsNamed name es :=
  List.filter_append ..

theorem objectNames_append (ds es : List Definition) :
    objectNames (ds ++ es) = objectNames ds ++ objectNames es :=
  List.filterMap_append ..

theorem mem_objectNames_iff {name : Name} {ds : List Definition} :
    name ∈ objectNames ds ↔ objectsNamed name ds ≠ [] := by
  simp [objectNames, objectsNamed, Definition.isObjectNamed]

/-- The group of definitions that are all there are of one name. -/
def ObjectGroup.ofList? : List Definition → Option ObjectGroup
  | [] => none
  | first :: others => some ⟨first, others⟩

theorem ObjectGroup.ofList?_eq_some_iff {ds : List Definition} {g : ObjectGroup} :
    ObjectGroup.ofList? ds = some g ↔ ds = g.definitions := by
  cases ds with
  | nil => simp [ofList?, definitions]
  | cons first others =>
    obtain ⟨f, os⟩ := g
    simp [ofList?, definitions]

theorem ObjectGroup.isRepeated_iff {g : ObjectGroup} :
    g.isRepeated = true ↔ 1 < g.definitions.length := by
  cases h : g.others <;> simp [isRepeated, definitions, h]

/-- The definitions of a name that are known already and one more. -/
def ObjectGroup.joined (known : Option ObjectGroup) (d : Definition) : ObjectGroup :=
  (known.map (ObjectGroup.add d)).getD ⟨d, []⟩

theorem ObjectGroup.ofList?_concat (ds : List Definition) (d : Definition) :
    ObjectGroup.ofList? (ds ++ [d]) = some (ObjectGroup.joined (ObjectGroup.ofList? ds) d) := by
  cases ds <;> rfl

theorem collectObject_of_name {d : Definition} {name : Name} (h : d.objectName? = some name)
    (groups : Entries ObjectGroup) :
    collectObject groups d =
      Entries.set name (ObjectGroup.joined (Entries.get? name groups) d) groups := by
  cases hg : Entries.get? name groups <;> simp [collectObject, h, hg, ObjectGroup.joined]

theorem collectObject_of_none {d : Definition} (h : d.objectName? = none)
    (groups : Entries ObjectGroup) : collectObject groups d = groups := by
  simp [collectObject, h]

theorem objectGroups_concat (ds : List Definition) (d : Definition) :
    objectGroups (ds ++ [d]) = collectObject (objectGroups ds) d := by
  simp [objectGroups]

theorem get?_objectGroups (name : Name) (ds : List Definition) :
    Entries.get? name (objectGroups ds) = ObjectGroup.ofList? (objectsNamed name ds) := by
  induction ds using List.reverseRecOn with
  | nil => rfl
  | append_singleton ds d ih =>
    rw [objectGroups_concat, objectsNamed_append]
    cases hd : d.objectName? with
    | none =>
      have hs : objectsNamed name [d] = [] := by
        simp [objectsNamed, Definition.isObjectNamed, hd]
      rw [collectObject_of_none hd, ih, hs, List.append_nil]
    | some own =>
      rw [collectObject_of_name hd, Entries.get?_set]
      by_cases he : name = own
      · have hs : objectsNamed name [d] = [d] := by
          simp [objectsNamed, Definition.isObjectNamed, hd, he]
        rw [hs, ObjectGroup.ofList?_concat, ← ih, if_pos he, he]
      · have hs : objectsNamed name [d] = [] := by
          simpa [objectsNamed, Definition.isObjectNamed, hd] using fun h => he h.symm
        rw [hs, List.append_nil, if_neg he, ih]

theorem mem_keys_objectGroups_iff {name : Name} {ds : List Definition} :
    name ∈ Entries.keys (objectGroups ds) ↔ name ∈ objectNames ds := by
  rw [← not_iff_not, ← Entries.get?_eq_none_iff, get?_objectGroups, mem_objectNames_iff, not_not]
  cases objectsNamed name ds <;> simp [ObjectGroup.ofList?]

/-- Names come by the places where they are first found. A new name was not found before, so its
place is behind all others. -/
theorem pairwise_keys_objectGroups (ds : List Definition) :
    (Entries.keys (objectGroups ds)).Pairwise
      fun a b => (objectNames ds).idxOf a < (objectNames ds).idxOf b := by
  induction ds using List.reverseRecOn with
  | nil => exact .nil
  | append_singleton ds d ih =>
    have hold : (Entries.keys (objectGroups ds)).Pairwise fun a b =>
        (objectNames (ds ++ [d])).idxOf a < (objectNames (ds ++ [d])).idxOf b := by
      refine ih.imp_of_mem fun {a b} ha hb hab => ?_
      rw [objectNames_append, List.idxOf_append_of_mem (mem_keys_objectGroups_iff.mp ha),
        List.idxOf_append_of_mem (mem_keys_objectGroups_iff.mp hb)]
      exact hab
    rw [objectGroups_concat]
    cases hd : d.objectName? with
    | none => rwa [collectObject_of_none hd]
    | some own =>
      rw [collectObject_of_name hd, Entries.keys_set]
      by_cases hk : own ∈ Entries.keys (objectGroups ds)
      · rwa [if_pos hk]
      · rw [if_neg hk]
        refine List.pairwise_append.mpr ⟨hold, List.pairwise_singleton _ _, fun a ha b hb => ?_⟩
        have hb : b = own := by simpa using hb
        have ha := mem_keys_objectGroups_iff.mp ha
        have hown : own ∉ objectNames ds := fun h => hk (mem_keys_objectGroups_iff.mpr h)
        rw [hb, objectNames_append, List.idxOf_append_of_mem ha,
          List.idxOf_append_of_notMem hown]
        have := List.idxOf_lt_length_of_mem ha
        omega

theorem nodup_keys_objectGroups (ds : List Definition) :
    (Entries.keys (objectGroups ds)).Nodup :=
  (pairwise_keys_objectGroups ds).imp fun h he => by simp [he] at h

theorem definitions_of_mem_objectGroups {name : Name} {g : ObjectGroup} {ds : List Definition}
    (h : (name, g) ∈ objectGroups ds) : g.definitions = objectsNamed name ds := by
  have hg := Entries.get?_of_mem (nodup_keys_objectGroups ds) h
  rw [get?_objectGroups] at hg
  exact (ObjectGroup.ofList?_eq_some_iff.mp hg).symm

theorem duplicatedNames_sublist (ds : List Definition) :
    (duplicatedNames ds).Sublist (Entries.keys (objectGroups ds)) :=
  List.filter_sublist.map _

theorem definitions_of_mem_duplicates {name : Name} {g : ObjectGroup} {ds : List Definition}
    (h : (name, g) ∈ duplicates ds) : g.definitions = objectsNamed name ds :=
  definitions_of_mem_objectGroups (List.mem_filter.mp h).1

theorem mem_duplicatedNames_iff {name : Name} {ds : List Definition} :
    name ∈ duplicatedNames ds ↔ 1 < (objectsNamed name ds).length := by
  constructor
  · intro h
    obtain ⟨⟨_, g⟩, hm, rfl⟩ := List.mem_map.mp h
    have hr := ObjectGroup.isRepeated_iff.mp (List.mem_filter.mp hm).2
    rwa [definitions_of_mem_duplicates hm] at hr
  · intro h
    have hne : objectsNamed name ds ≠ [] := fun he => by simp [he] at h
    have hk := mem_keys_objectGroups_iff.mpr (mem_objectNames_iff.mpr hne)
    obtain ⟨⟨_, g⟩, hm, rfl⟩ := List.mem_map.mp hk
    have hr : g.isRepeated = true := by
      rw [ObjectGroup.isRepeated_iff, definitions_of_mem_objectGroups hm]
      exact h
    exact List.mem_map.mpr ⟨_, List.mem_filter.mpr ⟨hm, hr⟩, rfl⟩

end SchemaLoom
