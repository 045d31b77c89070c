import Mathlib.Data.List.Induction
import Mathlib.Logic.Function.Iterate
import SchemaLoom.Production

/-! A batch under any order of turns. Each future moves by its own turns only, and a failure is
noted if it is the first. If nothing can fail, what has been seen of a future together with what is
still to be seen stays the same. -/

namespace SchemaLoom

namespace Progress

/-- The result that work has or will have. -/
def outcome? : Progress → Option (Except Failure ModuleValue)
  | .ready _ result => some result
  | .running _ result => some result
  | .waiting result => result
  | .finished result => some result
  | _ => none

def turnsLeft : Progress → Nat
  | .ready turns _ => turns + 1
  | .running turns _ => turns + 1
  | .waiting _ => 1
  | .stopping _ => 1
  | _ => 0

/-- What is still to be seen of work that is not disturbed any more. -/
def coming (index : Nat) : Progress → List Event
  | .ready _ _ => [.started index, .ended index]
  | .running _ _ => [.ended index]
  | .stopping begun => if begun then [.stopped index] else []
  | _ => []

def advance (index : Nat) (p : Progress) : Progress := (p.turn index).2

theorem turn_of_not_pending {p : Progress} (h : p.isPending = false) (index : Nat) :
    p.turn index = ([], p) := by
  cases p with
  | finished _ => rfl
  | cancelled => rfl
  | _ => simp [isPending] at h

theorem coming_turn (index : Nat) (p : Progress) :
    (p.turn index).1 ++ (p.advance index).coming index = p.coming index := by
  cases p with
  | ready turns _ => cases turns <;> rfl
  | running turns _ => cases turns <;> rfl
  | waiting result => cases result <;> rfl
  | stopping begun => cases begun <;> rfl
  | _ => rfl

theorem index_of_mem_turn {index : Nat} {p : Progress} {e : Event} (h : e ∈ (p.turn index).1) :
    e.index = index := by
  cases p with
  | ready turns _ =>
    cases turns <;> simp only [turn, List.mem_cons, List.not_mem_nil, or_false] at h
    · rcases h with rfl | rfl <;> rfl
    · subst h
      rfl
  | running turns _ =>
    cases turns <;> simp only [turn, List.mem_singleton, List.not_mem_nil] at h
    subst h
    rfl
  | waiting result => cases result <;> simp [turn] at h
  | stopping begun =>
    cases begun <;> simp only [turn, List.mem_singleton, List.not_mem_nil, reduceIte,
      Bool.false_eq_true] at h
    subst h
    rfl
  | _ => simp [turn] at h

theorem outcome?_advance (index : Nat) (p : Progress) :
    (p.advance index).outcome? = p.outcome? := by
  cases p with
  | ready turns _ => cases turns <;> rfl
  | running turns _ => cases turns <;> rfl
  | waiting result => cases result <;> rfl
  | stopping begun => cases begun <;> rfl
  | _ => rfl

theorem outcome?_iterate_advance (index n : Nat) (p : Progress) :
    ((advance index)^[n] p).outcome? = p.outcome? := by
  induction n with
  | zero => rfl
  | succ n ih => rw [Function.iterate_succ_apply', outcome?_advance, ih]

variable {p : Progress} {result : Except Failure ModuleValue}

theorem turnsLeft_advance (h : p.outcome? = some result) (index : Nat) :
    (p.advance index).turnsLeft = p.turnsLeft - 1 := by
  cases p with
  | ready turns _ => cases turns <;> rfl
  | running turns _ => cases turns <;> rfl
  | waiting own =>
    obtain rfl : own = some result := h
    rfl
  | _ => rfl

theorem turnsLeft_iterate_advance (h : p.outcome? = some result) (index n : Nat) :
    ((advance index)^[n] p).turnsLeft = p.turnsLeft - n := by
  induction n with
  | zero => rfl
  | succ n ih =>
    have hn := (outcome?_iterate_advance index n p).trans h
    rw [Function.iterate_succ_apply', turnsLeft_advance hn, ih]
    omega

theorem eq_finished (h : p.outcome? = some result) (hl : p.turnsLeft = 0) :
    p = .finished result := by
  cases p with
  | finished own =>
    obtain rfl : own = result := Option.some.inj h
    rfl
  | cancelled => simp [outcome?] at h
  | _ => simp [turnsLeft] at hl

/-- Work that gets all the turns it needs comes to its result. -/
theorem iterate_advance_eq_finished (h : p.outcome? = some result) {index n : Nat}
    (hn : p.turnsLeft ≤ n) : (advance index)^[n] p = .finished result := by
  refine eq_finished ((outcome?_iterate_advance index n p).trans h) ?_
  rw [turnsLeft_iterate_advance h]
  omega

theorem outcome?_of_failure? {failure : Failure} (h : p.failure? = some failure) :
    p.outcome? = some (.error failure) := by
  cases p with
  | finished own =>
    cases own with
    | ok _ => simp [failure?] at h
    | error own =>
      obtain rfl : own = failure := Option.some.inj h
      rfl
  | _ => simp [failure?] at h

theorem failure?_eq_none {value : ModuleValue} (h : p.outcome? = some (.ok value)) :
    p.failure? = none := by
  cases hf : p.failure? with
  | none => rfl
  | some failure => simp [outcome?_of_failure? hf] at h

end Progress

namespace Batch

/-- Futures of which the one with an index has had a turn. -/
def advanceAt (index : Nat) (futures : List (Nat × Progress)) : List (Nat × Progress) :=
  futures.map fun (i, p) => (i, if i = index then p.advance i else p)

theorem lookup_of_mem {futures : List (Nat × Progress)} (hnd : (futures.map Prod.fst).Nodup)
    {index : Nat} {p : Progress} (h : (index, p) ∈ futures) : futures.lookup index = some p := by
  induction futures with
  | nil => simp at h
  | cons e rest ih =>
    have hd := List.nodup_cons.mp hnd
    rcases List.mem_cons.mp h with rfl | hm
    · simp
    · have hne : index ≠ e.1 := fun he => hd.1 (he ▸ List.mem_map_of_mem hm)
      have hb : (index == e.1) = false := by simpa using hne
      rw [List.lookup_cons, hb]
      exact ih hd.2 hm

theorem mem_of_lookup {futures : List (Nat × Progress)} {index : Nat} {p : Progress}
    (h : futures.lookup index = some p) : (index, p) ∈ futures := by
  obtain ⟨before, after, rfl, -⟩ := List.lookup_eq_some_iff.mp h
  simp

theorem lookup_map (move : Nat → Progress → Progress) (futures : List (Nat × Progress))
    (index : Nat) :
    (futures.map fun (i, p) => (i, move i p)).lookup index =
      (futures.lookup index).map (move index) := by
  induction futures with
  | nil => rfl
  | cons e rest ih =>
    obtain ⟨i, p⟩ := e
    by_cases he : index = i
    · subst he
      simp
    · have hb : (index == i) = false := by simpa using he
      simp only [List.map_cons, List.lookup_cons, hb, ih]

theorem lookup_advanceAt (turn : Nat) (futures : List (Nat × Progress)) (index : Nat) :
    (advanceAt turn futures).lookup index =
      (futures.lookup index).map fun p => if index = turn then p.advance index else p :=
  lookup_map (fun i p => if i = turn then p.advance i else p) futures index

def turnEvents (b : Batch) (index : Nat) : List Event :=
  ((b.futures.lookup index).map fun p => (p.turn index).1).getD []

theorem index_of_mem_turnEvents {b : Batch} {index : Nat} {e : Event}
    (h : e ∈ b.turnEvents index) : e.index = index := by
  cases hl : b.futures.lookup index with
  | none => simp [turnEvents, hl] at h
  | some p => exact Progress.index_of_mem_turn (p := p) (by simpa [turnEvents, hl] using h)

theorem turnEvents_coming (b : Batch) (index : Nat) :
    b.turnEvents index ++
        (((advanceAt index b.futures).lookup index).map (Progress.coming index)).getD [] =
      ((b.futures.lookup index).map (Progress.coming index)).getD [] := by
  rw [lookup_advanceAt]
  cases hl : b.futures.lookup index with
  | none => simp [turnEvents, hl]
  | some p => simp [turnEvents, hl, Progress.coming_turn]

theorem advanceAt_of_idle {index : Nat} {futures : List (Nat × Progress)}
    (h : ∀ p, (index, p) ∈ futures → p.isPending = false) : advanceAt index futures = futures := by
  refine (List.map_congr_left fun e he => ?_).trans (List.map_id _)
  obtain ⟨i, p⟩ := e
  by_cases hi : i = index
  · subst hi
    simp [Progress.advance, Progress.turn_of_not_pending (h p he)]
  · simp [hi]

theorem advanceAt_of_lookup {index : Nat} {p : Progress} {futures : List (Nat × Progress)}
    (hnd : (futures.map Prod.fst).Nodup) (hl : futures.lookup index = some p) :
    advanceAt index futures =
      futures.map fun (i, q) => (i, if i = index then p.advance index else q) := by
  refine List.map_congr_left fun e he => ?_
  obtain ⟨i, q⟩ := e
  by_cases hi : i = index
  · subst hi
    simp [Option.some.inj ((lookup_of_mem hnd he).symm.trans hl)]
  · simp [hi]

theorem keys_advanceAt (index : Nat) (futures : List (Nat × Progress)) :
    (advanceAt index futures).map Prod.fst = futures.map Prod.fst := by
  simp [advanceAt]

/-- After any order of turns each future has moved as often as it had a turn. -/
theorem foldl_advanceAt (order : List Nat) (futures : List (Nat × Progress)) :
    order.foldl (fun futures index => advanceAt index futures) futures =
      futures.map fun (i, p) => (i, (Progress.advance i)^[order.count i] p) := by
  induction order generalizing futures with
  | nil => exact (List.map_id _).symm
  | cons turn rest ih =>
    rw [List.foldl_cons, ih, advanceAt, List.map_map]
    refine List.map_congr_left fun e _ => ?_
    obtain ⟨i, p⟩ := e
    by_cases hi : i = turn
    · subst hi
      simp [Function.iterate_succ_apply]
    · have hne : turn ≠ i := fun he => hi he.symm
      simp [hi, List.count_cons_of_ne hne]

variable {b : Batch}

/-- What a turn does. It does nothing if there is no such future or it is finished. -/
theorem proceed_eq (hnd : (b.futures.map Prod.fst).Nodup) (index : Nat) :
    b.proceed index = { b with
      events := b.events ++ b.turnEvents index
      futures := advanceAt index b.futures } := by
  cases hl : b.futures.lookup index with
  | none =>
    have hidle : ∀ p, (index, p) ∈ b.futures → p.isPending = false := by
      intro p hm
      simp [lookup_of_mem hnd hm] at hl
    simp [proceed, hl, turnEvents, advanceAt_of_idle hidle]
  | some p =>
    cases hp : p.isPending with
    | false =>
      have hidle : ∀ q, (index, q) ∈ b.futures → q.isPending = false := by
        intro q hm
        rwa [Option.some.inj ((lookup_of_mem hnd hm).symm.trans hl)]
      simp [proceed, hl, Option.filter, hp, turnEvents, advanceAt_of_idle hidle,
        Progress.turn_of_not_pending hp]
    | true =>
      simp [proceed, hl, Option.filter, hp, replace, turnEvents, advanceAt_of_lookup hnd hl,
        Progress.advance]

theorem futures_proceedAll (hnd : (b.futures.map Prod.fst).Nodup) (order : List Nat) :
    (b.proceedAll order).futures =
      b.futures.map fun (i, p) => (i, (Progress.advance i)^[order.count i] p) := by
  rw [← foldl_advanceAt]
  induction order generalizing b with
  | nil => rfl
  | cons turn rest ih =>
    have hf : (b.proceed turn).futures = advanceAt turn b.futures := by rw [proceed_eq hnd]
    have hk : ((b.proceed turn).futures.map Prod.fst).Nodup := by
      rwa [hf, keys_advanceAt]
    change ((b.proceed turn).proceedAll rest).futures = _
    rw [ih hk, hf, List.foldl_cons]

/-- The failure that a turn brings to light. -/
def turnFailure? (b : Batch) (index : Nat) : Option Failure :=
  ((b.futures.lookup index).filter Progress.isPending).bind fun p => (p.advance index).failure?

/-- What a turn does if no task is interrupted in it. -/
theorem resume_eq_of_uninterrupted (hb : b.interrupted = false)
    (hnd : (b.futures.map Prod.fst).Nodup) {index : Nat}
    (hturn : ∀ p failure, b.futures.lookup index = some p → p.isTask = true →
      (p.advance index).failure? = some failure → failure.isInterruption = false) :
    b.resume index = { b with
      events := b.events ++ b.turnEvents index
      futures := advanceAt index b.futures
      failure := b.failure.or (b.turnFailure? index) } := by
  have hstep := proceed_eq hnd index
  cases hl : (b.futures.lookup index).filter Progress.isPending with
  | none =>
    have hidle : b.proceed index = b := by simp only [proceed, hl]
    rw [hidle] at hstep
    rw [Batch.resume, if_neg (by simp [hb])]
    simp only [hl, turnFailure?, Option.bind_none, Option.or_none]
    exact hstep
  | some p =>
    have hlookup : b.futures.lookup index = some p := (Option.filter_eq_some_iff.mp hl).1
    rw [Batch.resume, if_neg (by simp [hb])]
    simp only [hl, turnFailure?, Option.bind_some]
    change (p.advance index).failure?.elim _ _ = _
    cases hf : (p.advance index).failure? with
    | none => simpa using hstep
    | some failure =>
      have hi : (p.isTask && failure.isInterruption) = false := by
        cases ht : p.isTask with
        | false => rfl
        | true => exact hturn p failure hlookup ht hf
      simp [Batch.fail, hi, hstep]

/-- A task that is interrupted ends the batch. -/
theorem resume_of_interrupting (hb : b.interrupted = false) {index : Nat} {p : Progress}
    {failure : Failure} (hl : b.futures.lookup index = some p) (ht : p.isTask = true)
    (hf : (p.advance index).failure? = some failure) (hi : failure.isInterruption = true) :
    (b.resume index).interrupted = true ∧ (b.resume index).failure = some failure := by
  have hpending : p.isPending = true := by
    cases p <;> simp_all [Progress.isTask, Progress.isPending]
  have hfilter : (b.futures.lookup index).filter Progress.isPending = some p := by
    rw [hl, Option.filter_some, if_pos hpending]
  have hfail : b.resume index = (b.proceed index).fail true failure := by
    rw [Batch.resume, if_neg (by simp [hb])]
    simp only [hfilter, ht]
    change (p.advance index).failure?.elim _ _ = _
    rw [hf, Option.elim_some]
  rw [hfail, Batch.fail, if_pos (by simp [hi])]
  exact ⟨rfl, rfl⟩

/-- No failure that futures have or come to is an interruption. -/
structure Steady (b : Batch) : Prop where
  interrupted : b.interrupted = false
  nodup : (b.futures.map Prod.fst).Nodup
  uninterrupted : ∀ e ∈ b.futures, ∀ failure, e.2.outcome? = some (.error failure) →
    failure.isInterruption = false

namespace Steady

theorem resume_eq (h : b.Steady) (index : Nat) :
    b.resume index = { b with
      events := b.events ++ b.turnEvents index
      futures := advanceAt index b.futures
      failure := b.failure.or (b.turnFailure? index) } := by
  refine resume_eq_of_uninterrupted h.interrupted h.nodup fun p failure hl _ hf => ?_
  have ho := Progress.outcome?_of_failure? hf
  rw [Progress.outcome?_advance] at ho
  exact h.uninterrupted _ (mem_of_lookup hl) failure ho

theorem futures_resume (h : b.Steady) (index : Nat) :
    (b.resume index).futures = advanceAt index b.futures := by
  rw [h.resume_eq]

theorem resume (h : b.Steady) (index : Nat) : (b.resume index).Steady := by
  have hi : (b.resume index).interrupted = b.interrupted := by rw [h.resume_eq]
  refine ⟨hi.trans h.interrupted, ?_, fun e he failure hf => ?_⟩
  · rw [h.futures_resume, keys_advanceAt]
    exact h.nodup
  · rw [h.futures_resume] at he
    obtain ⟨⟨i, p⟩, hm, rfl⟩ := List.mem_map.mp he
    refine h.uninterrupted _ hm failure ?_
    by_cases hi : i = index
    · simpa [hi, Progress.outcome?_advance] using hf
    · simpa [hi] using hf

theorem futures_resumeAll (h : b.Steady) (schedule : List Nat) :
    (b.resumeAll schedule).futures =
      b.futures.map fun (i, p) => (i, (Progress.advance i)^[schedule.count i] p) := by
  rw [← foldl_advanceAt]
  induction schedule generalizing b with
  | nil => rfl
  | cons turn rest ih =>
    change ((b.resume turn).resumeAll rest).futures = _
    rw [ih (h.resume turn), h.futures_resume, List.foldl_cons]

end Steady

/-- What has been seen of a future and what is still to be seen of it if it is not disturbed. -/
def story (b : Batch) (index : Nat) : List Event :=
  b.events.filter (·.index = index)
    ++ ((b.futures.lookup index).map (Progress.coming index)).getD []

/-- Nothing has failed, and every future has a value coming. -/
structure Thriving (b : Batch) : Prop where
  failure : b.failure = none
  interrupted : b.interrupted = false
  nodup : (b.futures.map Prod.fst).Nodup
  value : ∀ e ∈ b.futures, ∃ value, e.2.outcome? = some (.ok value)

namespace Thriving

theorem steady (h : b.Thriving) : b.Steady := by
  refine ⟨h.interrupted, h.nodup, fun e he failure hf => ?_⟩
  obtain ⟨value, hv⟩ := h.value e he
  simp [hv] at hf

theorem turnFailure? (h : b.Thriving) (index : Nat) : b.turnFailure? index = none := by
  cases hl : (b.futures.lookup index).filter Progress.isPending with
  | none => simp [Batch.turnFailure?, hl]
  | some p =>
    obtain ⟨value, hv⟩ := h.value _ (mem_of_lookup (Option.filter_eq_some_iff.mp hl).1)
    have ho : (p.advance index).outcome? = some (.ok value) :=
      (Progress.outcome?_advance index p).trans hv
    simp [Batch.turnFailure?, hl, Progress.failure?_eq_none ho]

theorem resume_eq (h : b.Thriving) (index : Nat) :
    b.resume index = { b with
      events := b.events ++ b.turnEvents index
      futures := advanceAt index b.futures } := by
  simp [h.steady.resume_eq, h.turnFailure?]

theorem resume (h : b.Thriving) (index : Nat) : (b.resume index).Thriving := by
  refine ⟨?_, (h.steady.resume index).interrupted, (h.steady.resume index).nodup, fun e he => ?_⟩
  · rw [h.resume_eq]
    exact h.failure
  · rw [h.resume_eq] at he
    obtain ⟨⟨i, p⟩, hm, rfl⟩ := List.mem_map.mp he
    obtain ⟨value, hv⟩ := h.value _ hm
    refine ⟨value, ?_⟩
    by_cases hi : i = index
    · simpa [hi, Progress.outcome?_advance] using hv
    · simpa [hi] using hv

theorem story_resume (h : b.Thriving) (turn index : Nat) :
    (b.resume turn).story index = b.story index := by
  rw [h.resume_eq]
  simp only [story, List.filter_append, List.append_assoc]
  refine congrArg _ ?_
  -- What a turn shows of its own future was still to be seen; of the others it shows nothing.
  by_cases hi : index = turn
  · subst hi
    have hown : (b.turnEvents index).filter (·.index = index) = b.turnEvents index :=
      List.filter_eq_self.mpr fun e he => by simp [index_of_mem_turnEvents he]
    rw [hown, turnEvents_coming]
  · have hother : (b.turnEvents turn).filter (·.index = index) = [] := by
      refine List.filter_eq_nil_iff.mpr fun e he => ?_
      simpa [index_of_mem_turnEvents he] using fun heq => hi heq.symm
    simp [hother, lookup_advanceAt, hi]

theorem resumeAll (h : b.Thriving) (schedule : List Nat) : (b.resumeAll schedule).Thriving := by
  induction schedule generalizing b with
  | nil => exact h
  | cons turn rest ih => exact ih (h.resume turn)

theorem story_resumeAll (h : b.Thriving) (schedule : List Nat) (index : Nat) :
    (b.resumeAll schedule).story index = b.story index := by
  induction schedule generalizing b with
  | nil => rfl
  | cons turn rest ih => exact (ih (h.resume turn)).trans (h.story_resume turn index)

end Thriving

end Batch

end SchemaLoom
