/-! Lists of keyed entries in which a key keeps the place where it first came. -/

namespace SchemaLoom

/-- Entries in order, each key at most once. -/
abbrev Entries (α : Type u) := List (String × α)

namespace Entries

def get? (key : String) : Entries α → Option α
  | [] => none
  | (k, a) :: rest => if k = key then some a else get? key rest

def keys (entries : Entries α) : List String := entries.map Prod.fst

def contains (key : String) (entries : Entries α) : Bool := (get? key entries).isSome

/-- Give a key a value. A new key goes to the end. -/
def set (key : String) (value : α) : Entries α → Entries α
  | [] => [(key, value)]
  | (k, a) :: rest => if k = key then (k, value) :: rest else (k, a) :: set key value rest

/-- Entries given one after another: the last value of a key counts, at the place of its first. -/
def ofList (entries : List (String × α)) : Entries α :=
  entries.foldl (fun known (key, value) => set key value known) []

variable {α : Type u}

@[simp] theorem keys_nil : keys ([] : Entries α) = [] := rfl

@[simp] theorem keys_cons (e : String × α) (rest : Entries α) :
    keys (e :: rest) = e.1 :: keys rest := rfl

theorem get?_set (k key : String) (a : α) (entries : Entries α) :
    get? k (set key a entries) = if k = key then some a else get? k entries := by
  induction entries with
  | nil => simp [set, get?, eq_comm]
  | cons e rest ih =>
    by_cases he : e.1 = key
    · subst he
      simp only [set, get?, if_true]
      by_cases hk : k = e.1 <;> simp [hk, eq_comm]
    · by_cases hk : e.1 = k
      · simp [set, get?, hk, hk ▸ he]
      · simp [set, get?, he, hk, ih]

/-- A key that is known keeps its place; a new one goes to the end. -/
theorem keys_set (key : String) (a : α) (entries : Entries α) :
    keys (set key a entries) =
      if key ∈ keys entries then keys entries else keys entries ++ [key] := by
  induction entries with
  | nil => simp [set]
  | cons e rest ih =>
    by_cases he : e.1 = key
    · simp [set, he]
    · have hne : key ≠ e.1 := fun h => he h.symm
      by_cases hm : key ∈ keys rest <;> simp [set, he, hne, ih, hm]

theorem get?_eq_none_iff {k : String} {entries : Entries α} :
    get? k entries = none ↔ k ∉ keys entries := by
  induction entries with
  | nil => simp [get?]
  | cons e rest ih =>
    by_cases he : e.1 = k
    · simp [get?, he]
    · have hne : k ≠ e.1 := fun h => he h.symm
      simp [get?, he, hne, ih]

theorem get?_of_mem {k : String} {a : α} {entries : Entries α}
    (hnd : (keys entries).Nodup) (h : (k, a) ∈ entries) : get? k entries = some a := by
  induction entries with
  | nil => simp at h
  | cons e rest ih =>
    have hd := List.nodup_cons.mp hnd
    rcases List.mem_cons.mp h with rfl | hm
    · simp [get?]
    · have hk : k ∈ keys rest := List.mem_map_of_mem hm
      have hne : e.1 ≠ k := fun he => hd.1 (he ▸ hk)
      simpa [get?, hne] using ih hd.2 hm

theorem mem_of_get? {k : String} {a : α} {entries : Entries α} (h : get? k entries = some a) :
    (k, a) ∈ entries := by
  induction entries with
  | nil => simp [get?] at h
  | cons e rest ih =>
    by_cases he : e.1 = k
    · obtain rfl : e.2 = a := by simpa [get?, he] using h
      exact List.mem_cons.mpr (.inl (he ▸ rfl))
    · exact List.mem_cons_of_mem _ (ih (by simpa [get?, he] using h))

theorem get?_filter {entries : Entries α} (hnd : (keys entries).Nodup)
    (keep : String × α → Bool) (k : String) :
    get? k (entries.filter keep) = (get? k entries).filter fun a => keep (k, a) := by
  induction entries with
  | nil => rfl
  | cons e rest ih =>
    obtain ⟨key, a⟩ := e
    have hd := List.nodup_cons.mp hnd
    by_cases hk : key = k
    · subst hk
      have hrest : get? key rest = none := get?_eq_none_iff.mpr hd.1
      by_cases hp : keep (key, a) = true
      · simp [get?, hp, Option.filter]
      · simp [get?, hp, ih hd.2, hrest, Option.filter]
    · by_cases hp : keep (key, a) = true
      · simp [get?, hp, hk, ih hd.2]
      · simp [get?, hp, hk, ih hd.2]

/-- At most one entry has a given key. -/
theorem filter_key {entries : Entries α} (hnd : (keys entries).Nodup) (k : String) :
    entries.filter (fun e => e.1 = k) = ((get? k entries).map fun a => (k, a)).toList := by
  induction entries with
  | nil => rfl
  | cons e rest ih =>
    obtain ⟨key, a⟩ := e
    have hd := List.nodup_cons.mp hnd
    by_cases hk : key = k
    · subst hk
      have hrest : get? key rest = none := get?_eq_none_iff.mpr hd.1
      simp [get?, ih hd.2, hrest]
    · simp [get?, hk, ih hd.2]

theorem set_of_notMem {key : String} {entries : Entries α} (h : key ∉ keys entries) (a : α) :
    set key a entries = entries ++ [(key, a)] := by
  induction entries with
  | nil => rfl
  | cons e rest ih =>
    have hne : e.1 ≠ key := fun he => h (by simp [he])
    have hrest : key ∉ keys rest := fun hm => h (by simp [hm])
    simp [set, hne, ih hrest]

/-- Entries with different keys stay as they are. -/
theorem ofList_of_nodup {entries : Entries α} (h : (keys entries).Nodup) :
    ofList entries = entries := by
  have hfold : ∀ known : Entries α, (keys (known ++ entries)).Nodup →
      entries.foldl (fun known (key, value) => set key value known) known = known ++ entries := by
    induction entries with
    | nil => simp
    | cons e rest ih =>
      intro known hnd
      obtain ⟨key, a⟩ := e
      have hkeys : keys (known ++ (key, a) :: rest) = keys known ++ key :: keys rest :=
        List.map_append
      have hnew : key ∉ keys known := fun hm =>
        (List.nodup_append.mp (hkeys ▸ hnd)).2.2 _ hm _ (List.mem_cons_self ..) rfl
      have hrest := ih (List.nodup_cons.mp h).2 (known ++ [(key, a)]) (by simpa using hnd)
      simp only [List.foldl_cons, set_of_notMem hnew, hrest, List.append_assoc,
        List.singleton_append]
  exact hfold [] h

section Map

variable {β : Type v}

theorem get?_map (f : α → β) (key : String) (entries : Entries α) :
    get? key (entries.map fun e => (e.1, f e.2)) = (get? key entries).map f := by
  induction entries with
  | nil => rfl
  | cons e rest ih => by_cases he : e.1 = key <;> simp [get?, he, ih]

theorem set_map (f : α → β) (key : String) (a : α) (entries : Entries α) :
    set key (f a) (entries.map fun e => (e.1, f e.2)) =
      (set key a entries).map fun e => (e.1, f e.2) := by
  induction entries with
  | nil => rfl
  | cons e rest ih => by_cases he : e.1 = key <;> simp [set, he, ih]

theorem ofList_map (f : α → β) (entries : List (String × α)) :
    ofList (entries.map fun e => (e.1, f e.2)) = (ofList entries).map fun e => (e.1, f e.2) := by
  have hfold : ∀ known : Entries α,
      (entries.map fun e => (e.1, f e.2)).foldl (fun known (key, value) => set key value known)
          (known.map fun e => (e.1, f e.2)) =
        (entries.foldl (fun known (key, value) => set key value known) known).map
          fun e => (e.1, f e.2) := by
    induction entries with
    | nil => exact fun _ => rfl
    | cons e rest ih =>
      intro known
      obtain ⟨key, a⟩ := e
      simp only [List.map_cons, List.foldl_cons, set_map, ih]
  exact hfold []

end Map

end Entries

end SchemaLoom
