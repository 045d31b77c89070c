import Mathlib.Data.List.Basic
import SchemaLoom.Proofs.Production.Turns

/-! What modules are produced as, and what of that is awaited: the futures stand at the indices of
their modules. -/

namespace SchemaLoom

namespace Produced

def initial? : Produced → Option Progress
  | .value _ => none
  | .awaitable a => some (Progress.initial a)

/-- The value that something produced is or comes to. -/
def value? : Produced → Option ModuleValue
  | .value v => some v
  | .awaitable a =>
    match (Progress.initial a).outcome? with
    | some (.ok v) => some v
    | _ => none

def isTask : Produced → Bool
  | .awaitable (.task _ _ _) => true
  | _ => false

theorem outcome?_of_value? {a : Awaitable} {value : ModuleValue}
    (h : (Produced.awaitable a).value? = some value) :
    (Progress.initial a).outcome? = some (.ok value) := by
  simp only [value?] at h
  split at h
  · rename_i own ho
    rw [ho, Option.some.inj h]
  · simp at h

theorem turnsLeft_initial {a : Awaitable} {result : Except Failure ModuleValue}
    (h : (Progress.initial a).outcome? = some result) :
    (Progress.initial a).turnsLeft = lastRound (.awaitable a) := by
  cases a with
  | future own =>
    cases own with
    | none => simp [Progress.initial, Progress.outcome?] at h
    | some _ => rfl
  | _ => rfl

theorem coming_initial (p : Produced) (index : Nat) :
    (p.initial?.map (Progress.coming index)).getD [] =
      if p.isTask then [.started index, .ended index] else [] := by
  cases p with
  | value _ => rfl
  | awaitable a =>
    cases a with
    | future own => cases own <;> rfl
    | _ => rfl

end Produced

namespace Given

/-- What a module is produced as, if nothing is raised. -/
def produced? : Given → Option Produced
  | .eager produced => some produced
  | .producer (.ok produced) => some produced
  | .producer (.error _) => none

def isProducer : Given → Bool
  | .eager _ => false
  | .producer _ => true

/-- The value of a module that does not fail. -/
def value? (given : Given) : Option ModuleValue := given.produced?.bind Produced.value?

def isAwaitable (given : Given) : Bool := given.produced?.any Produced.isAwaitable

def isTask (given : Given) : Bool := given.produced?.any Produced.isTask

/-- The number of turns that a module needs. -/
def turns (given : Given) : Nat := (given.produced?.map lastRound).getD 0

theorem produce_of_produced? {given : Given} {p : Produced} (h : given.produced? = some p)
    (index : Nat) :
    given.produce index = (if given.isProducer then [.called index] else [], .ok p) := by
  cases given with
  | eager own =>
    obtain rfl := Option.some.inj h
    rfl
  | producer result =>
    cases result with
    | error failure => cases h
    | ok own =>
      obtain rfl := Option.some.inj h
      rfl

end Given

theorem bind_getElem?_of_map_eq {α β : Type} {f : α → Option β} {xs : List α} {ys : List β}
    (h : xs.map f = ys.map some) (i : Nat) : (xs[i]?).bind f = ys[i]? := by
  have hi : (xs[i]?).map f = (ys[i]?).map some := by
    rw [← List.getElem?_map, h, List.getElem?_map]
  cases hx : xs[i]? <;> cases hy : ys[i]? <;> simp_all

theorem produceFrom_append {before : List Given} {produced : List Produced}
    (h : before.map Given.produced? = produced.map some) (after : List Given) (index : Nat) :
    let calls := produceFrom (index + before.length) after
    produceFrom index (before ++ after) =
      ⟨(before.findIdxs Given.isProducer index).map Event.called ++ calls.events,
        produced ++ calls.produced, calls.failure⟩ := by
  induction before generalizing produced index with
  | nil =>
    obtain rfl : produced = [] := by simpa using h.symm
    rfl
  | cons given rest ih =>
    cases produced with
    | nil => simp at h
    | cons p others =>
      obtain ⟨hp, hrest⟩ := List.cons.inj h
      have hi := ih hrest (index + 1)
      have hlength : index + 1 + rest.length = index + (given :: rest).length := by
        rw [List.length_cons]
        omega
      simp only [List.cons_append, produceFrom, Given.produce_of_produced? hp, hi, hlength,
        List.findIdxs_cons]
      cases given.isProducer <;> rfl

theorem produceFrom_eq {modules : List Given} {produced : List Produced}
    (h : modules.map Given.produced? = produced.map some) (index : Nat) :
    produceFrom index modules =
      ⟨(modules.findIdxs Given.isProducer index).map Event.called, produced, none⟩ := by
  have happend := produceFrom_append h [] index
  simpa [produceFrom] using happend

theorem exists_produced {modules : List Given} {values : List ModuleValue}
    (h : modules.map Given.value? = values.map some) :
    ∃ produced : List Produced, modules.map Given.produced? = produced.map some ∧
      produced.map Produced.value? = values.map some := by
  induction modules generalizing values with
  | nil =>
    obtain rfl : values = [] := by simpa using h.symm
    exact ⟨[], rfl, rfl⟩
  | cons given rest ih =>
    cases values with
    | nil => simp at h
    | cons value others =>
      obtain ⟨hv, hrest⟩ := List.cons.inj h
      obtain ⟨p, hp, hpv⟩ := Option.bind_eq_some_iff.mp hv
      obtain ⟨produced, hps, hpsv⟩ := ih hrest
      exact ⟨p :: produced, by simp [hp, hps], by simp [hpv, hpsv]⟩

theorem le_of_mem_futuresFrom {index : Nat} {produced : List Produced} {e : Nat × Progress}
    (h : e ∈ futuresFrom index produced) : index ≤ e.1 := by
  induction produced generalizing index with
  | nil => simp [futuresFrom] at h
  | cons p rest ih =>
    cases p with
    | value _ => exact Nat.le_trans (Nat.le_succ index) (ih h)
    | awaitable a =>
      rcases List.mem_cons.mp h with rfl | hm
      · exact Nat.le_refl _
      · exact Nat.le_trans (Nat.le_succ index) (ih hm)

theorem nodup_futuresFrom (index : Nat) (produced : List Produced) :
    ((futuresFrom index produced).map Prod.fst).Nodup := by
  induction produced generalizing index with
  | nil => exact .nil
  | cons p rest ih =>
    cases p with
    | value _ => exact ih (index + 1)
    | awaitable a =>
      refine List.nodup_cons.mpr ⟨fun hm => ?_, ih (index + 1)⟩
      obtain ⟨e, he, hi⟩ := List.mem_map.mp hm
      have := le_of_mem_futuresFrom he
      omega

theorem lookup_futuresFrom (index i : Nat) (produced : List Produced) :
    (futuresFrom index produced).lookup (index + i) = (produced[i]?).bind Produced.initial? := by
  induction produced generalizing index i with
  | nil => simp [futuresFrom]
  | cons p rest ih =>
    cases i with
    | zero =>
      cases p with
      | awaitable a => simp [futuresFrom, Produced.initial?]
      | value _ =>
        -- Whatever is awaited later has a greater index.
        refine List.lookup_eq_none_iff.mpr fun e he => ?_
        have hle : index + 1 ≤ e.1 := le_of_mem_futuresFrom he
        have hne : index + 0 ≠ e.1 := by omega
        simpa using hne
    | succ i =>
      have hi : (futuresFrom (index + 1) rest).lookup (index + (i + 1)) =
          (rest[i]?).bind Produced.initial? := by
        rw [← ih (index + 1) i]
        congr 1
        omega
      cases p with
      | awaitable a =>
        have hb : (index + (i + 1) == index) = false := by simp
        simpa [futuresFrom, List.lookup_cons, hb] using hi
      | value _ => simpa [futuresFrom] using hi

theorem initial_of_mem_futuresFrom {produced : List Produced} {e : Nat × Progress}
    (h : e ∈ futuresFrom 0 produced) :
    ∃ a, produced[e.1]? = some (.awaitable a) ∧ e.2 = Progress.initial a := by
  have hl := Batch.lookup_of_mem (nodup_futuresFrom 0 produced) h
  have hf := lookup_futuresFrom 0 e.1 produced
  rw [Nat.zero_add, hl] at hf
  obtain ⟨p, hp, hi⟩ := Option.bind_eq_some_iff.mp hf.symm
  cases p with
  | value _ => simp [Produced.initial?] at hi
  | awaitable a => exact ⟨a, hp, (Option.some.inj hi).symm⟩

end SchemaLoom
