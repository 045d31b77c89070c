import Mathlib.Data.List.Basic
import Mathlib.Data.List.Induction
import SchemaLoom.Entries

/-! Entries as a whole: they are known by their keys and what is found under each, and of entries
given one after another the last one counts, at the place of the first. -/

namespace SchemaLoom

namespace Entries

variable {α : Type u}

theorem get?_append (k : String) (first second : List (String × α)) :
    get? k (first ++ second) = (get? k first).or (get? k second) := by
  induction first with
  | nil => rfl
  | cons e rest ih => by_cases he : e.1 = k <;> simp [get?, he, ih]

theorem ofList_concat (entries : List (String × α)) (e : String × α) :
    ofList (entries ++ [e]) = set e.1 e.2 (ofList entries) := by
  simp [ofList]

theorem get?_ofList (k : String) (entries : List (String × α)) :
    get? k (ofList entries) = get? k entries.reverse := by
  induction entries using List.reverseRecOn with
  | nil => rfl
  | append_singleton entries e ih =>
    rw [ofList_concat, get?_set, ih, List.reverse_append]
    by_cases hk : k = e.1
    · simp [get?, hk]
    · have hne : e.1 ≠ k := fun he => hk he.symm
      simp [get?, hk, hne]

theorem keys_ofList (entries : List (String × α)) :
    keys (ofList entries) = (keys entries).eraseDups := by
  induction entries using List.reverseRecOn with
  | nil => rfl
  | append_singleton entries e ih =>
    have hkeys : keys (entries ++ [e]) = keys entries ++ [e.1] := List.map_append
    rw [ofList_concat, keys_set, ih, hkeys, List.eraseDups_append]
    by_cases hk : e.1 ∈ keys entries
    · simp [List.removeAll, hk]
    · simp [List.removeAll, List.eraseDups_cons, hk]

theorem nodup_eraseDups (names : List String) : names.eraseDups.Nodup := by
  induction names using List.reverseRecOn with
  | nil => exact .nil
  | append_singleton names name ih =>
    rw [List.eraseDups_append]
    by_cases hk : name ∈ names
    · simpa [List.removeAll, hk] using ih
    · have hsingle : ([name].removeAll names).eraseDups = [name] := by
        simp [List.removeAll, List.eraseDups_cons, hk]
      rw [hsingle]
      refine List.nodup_append.mpr ⟨ih, List.pairwise_singleton _ _, fun a ha b hb hab => ?_⟩
      obtain rfl : b = name := List.mem_singleton.mp hb
      exact hk (List.mem_eraseDups.mp (hab ▸ ha))

/-- Entries with the same keys in the same order are the same if they have the same under each. -/
theorem ext {entries others : Entries α} (hnd : (keys entries).Nodup)
    (hkeys : keys entries = keys others) (hget : ∀ k, get? k entries = get? k others) :
    entries = others := by
  induction entries generalizing others with
  | nil =>
    cases others with
    | nil => rfl
    | cons _ _ => simp at hkeys
  | cons e rest ih =>
    cases others with
    | nil => simp at hkeys
    | cons o more =>
      obtain ⟨hkey, hrest⟩ := List.cons.inj hkeys
      have hd := List.nodup_cons.mp hnd
      have hvalue : e.2 = o.2 := by
        have h := hget e.1
        simpa [get?, show o.1 = e.1 from hkey.symm] using h
      have hmore : ∀ k, get? k rest = get? k more := by
        intro k
        by_cases hk : e.1 = k
        · have hfresh : k ∉ keys rest := hk ▸ hd.1
          have hfresh' : k ∉ keys more := by rwa [keys, ← hrest]
          rw [get?_eq_none_iff.mpr hfresh, get?_eq_none_iff.mpr hfresh']
        · have hk' : o.1 ≠ k := fun h => hk (hkey.trans h)
          have h := hget k
          simpa [get?, hk, hk'] using h
      have hhead : e = o := Prod.ext hkey hvalue
      rw [hhead, ih hd.2 hrest hmore]

end Entries

end SchemaLoom
