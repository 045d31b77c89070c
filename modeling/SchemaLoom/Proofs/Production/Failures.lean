import Mathlib.Data.List.Infix
import SchemaLoom.Proofs.Production.Calls

/-! Awaitables that fail. A batch notes the failure that is the first in time, in whatever order the
turns come, as long as no task is interrupted. -/

namespace SchemaLoom

/-- What an awaitable comes to if it is not disturbed. -/
def Awaitable.result? : Awaitable → Option (Except Failure ModuleValue)
  | .future result => result
  | .promise result => some result
  | .task _ _ result => some result

/-- The awaitable of a module has come to its result within the given turns. -/
def Awaitable.EndsWithin (turns : List Nat) (index : Nat) (a : Awaitable)
    (result : Except Failure ModuleValue) : Prop :=
  a.result? = some result ∧ lastRound (.awaitable a) ≤ turns.count index

/-- The module with an index has failed within the given turns. -/
def HasFailed (produced : List Produced) (turns : List Nat) (index : Nat)
    (failure : Failure) : Prop :=
  ∃ a, produced[index]? = some (.awaitable a) ∧ a.EndsWithin turns index (.error failure)

/-- The first failure in time: no module has failed after fewer turns. Those that had failed before
any turn count in the order of the modules. -/
def FailsFirst (produced : List Produced) (order : List Nat) (index : Nat)
    (failure : Failure) : Prop :=
  ∃ before after, order = before ++ after ∧ HasFailed produced before index failure ∧
    (∀ other own, HasFailed produced before other own → index ≤ other) ∧
    ∀ earlier rest, before = earlier ++ rest → rest ≠ [] →
      ∀ other own, ¬ HasFailed produced earlier other own

variable {produced : List Produced} {order : List Nat} {index : Nat} {failure : Failure}

theorem HasFailed.append (h : HasFailed produced order index failure) (more : List Nat) :
    HasFailed produced (order ++ more) index failure := by
  obtain ⟨a, ha, hr, hl⟩ := h
  refine ⟨a, ha, hr, ?_⟩
  rw [List.count_append]
  omega

theorem HasFailed.failure_unique {failure' : Failure} {order' : List Nat}
    (h : HasFailed produced order index failure)
    (h' : HasFailed produced order' index failure') : failure = failure' := by
  obtain ⟨a, ha, hr, -⟩ := h
  obtain ⟨a', ha', hr', -⟩ := h'
  obtain rfl : a = a' := by simpa [ha] using ha'
  simpa [hr] using hr'

theorem FailsFirst.unique {index' : Nat} {failure' : Failure}
    (h : FailsFirst produced order index failure)
    (h' : FailsFirst produced order index' failure') : index = index' ∧ failure = failure' := by
  obtain ⟨before, after, horder, hfailed, hleast, hnone⟩ := h
  obtain ⟨before', after', horder', hfailed', hleast', hnone'⟩ := h'
  have hsame : before = before' := by
    rcases List.append_eq_append_iff.mp (horder.symm.trans horder') with
      ⟨rest, hrest, -⟩ | ⟨rest, hrest, -⟩
    · by_contra hne
      have hr : rest ≠ [] := fun he => hne (by simpa [he] using hrest.symm)
      exact hnone' before rest hrest hr index failure hfailed
    · by_contra hne
      have hr : rest ≠ [] := fun he => hne (by simpa [he] using hrest)
      exact hnone before' rest hrest hr index' failure' hfailed'
  subst hsame
  obtain rfl : index = index' :=
    Nat.le_antisymm (hleast index' failure' hfailed') (hleast' index failure hfailed)
  exact ⟨rfl, hfailed.failure_unique hfailed'⟩

theorem count_concat (order : List Nat) (turn index : Nat) :
    (order ++ [turn]).count index = order.count index + if turn = index then 1 else 0 := by
  simp [List.count_append, List.count_singleton]

namespace Progress

theorem outcome?_initial (a : Awaitable) : (Progress.initial a).outcome? = a.result? := by
  cases a with
  | future own => cases own <;> rfl
  | _ => rfl

theorem turnsLeft_of_finished {result : Except Failure ModuleValue} :
    (Progress.finished result).turnsLeft = 0 := rfl

theorem iterate_initial_eq_finished_iff {a : Awaitable} {result : Except Failure ModuleValue} :
    (advance index)^[order.count index] (Progress.initial a) = .finished result ↔
      a.EndsWithin order index result := by
  constructor
  · intro h
    have ho := outcome?_iterate_advance index (order.count index) (Progress.initial a)
    rw [h, outcome?_initial] at ho
    have hr : a.result? = some result := ho.symm
    have hi := (outcome?_initial a).trans hr
    have hl := turnsLeft_iterate_advance hi index (order.count index)
    rw [h, turnsLeft_of_finished, Produced.turnsLeft_initial hi] at hl
    exact ⟨hr, by omega⟩
  · rintro ⟨hr, hl⟩
    have hi := (outcome?_initial a).trans hr
    exact iterate_advance_eq_finished hi (by rwa [Produced.turnsLeft_initial hi])

theorem failure?_iterate_initial_iff {a : Awaitable} :
    ((advance index)^[order.count index] (Progress.initial a)).failure? = some failure ↔
      a.EndsWithin order index (.error failure) := by
  rw [← iterate_initial_eq_finished_iff]
  generalize (advance index)^[order.count index] (Progress.initial a) = p
  cases p with
  | finished own => cases own <;> simp [failure?]
  | _ => simp [failure?]

theorem failure?_advance_iterate_initial_iff {a : Awaitable} :
    (((advance index)^[order.count index] (Progress.initial a)).advance index).failure? =
        some failure ↔ a.EndsWithin (order ++ [index]) index (.error failure) := by
  rw [← failure?_iterate_initial_iff, count_concat, if_pos rfl, Function.iterate_succ_apply']

theorem isTask_iterate_advance {p : Progress} (h : p.isTask = false) (index n : Nat) :
    ((advance index)^[n] p).isTask = false := by
  induction n with
  | zero => exact h
  | succ n ih =>
    rw [Function.iterate_succ_apply']
    generalize (advance index)^[n] p = q at ih
    cases q with
    | waiting result => cases result <;> rfl
    | finished _ => rfl
    | cancelled => rfl
    | _ => simp [isTask] at ih

theorem isTask_iterate_ready {turns n : Nat} (h : n ≤ turns) (index : Nat)
    (result : Except Failure ModuleValue) :
    ((advance index)^[n] (.ready turns result)).isTask = true := by
  have hrunning : ∀ m left, m ≤ left →
      (advance index)^[m] (.running left result) = .running (left - m) result := by
    intro m
    induction m with
    | zero => exact fun _ _ => rfl
    | succ m ih =>
      intro left hm
      obtain ⟨rest, rfl⟩ : ∃ rest, left = rest + 1 := ⟨left - 1, by omega⟩
      rw [Function.iterate_succ_apply]
      have hrest := ih rest (by omega)
      rwa [Nat.add_sub_add_right]
  cases n with
  | zero => rfl
  | succ n =>
    obtain ⟨rest, rfl⟩ : ∃ rest, turns = rest + 1 := ⟨turns - 1, by omega⟩
    have hstep : (advance index)^[n] (.running rest result) = .running (rest - n) result :=
      hrunning n rest (by omega)
    rw [Function.iterate_succ_apply]
    exact congrArg isTask hstep

end Progress

theorem pairwise_futuresFrom (index : Nat) (produced : List Produced) :
    (futuresFrom index produced).Pairwise fun e e' => e.1 < e'.1 := by
  induction produced generalizing index with
  | nil => exact .nil
  | cons p rest ih =>
    cases p with
    | value _ => exact ih (index + 1)
    | awaitable a =>
      exact List.pairwise_cons.mpr ⟨fun e he => le_of_mem_futuresFrom he, ih (index + 1)⟩

theorem mem_futuresFrom {a : Awaitable} (h : produced[index]? = some (.awaitable a)) :
    (index, Progress.initial a) ∈ futuresFrom 0 produced := by
  have hl := lookup_futuresFrom 0 index produced
  rw [Nat.zero_add, h] at hl
  exact Batch.mem_of_lookup hl

/-- A task has come to an interruption within the given turns. -/
def IsInterrupted (produced : List Produced) (turns : List Nat) : Prop :=
  ∃ index form needed failure,
    produced[index]? = some (.awaitable (.task form needed (.error failure))) ∧
    failure.isInterruption = true ∧ needed < turns.count index

theorem IsInterrupted.append (h : IsInterrupted produced order) (more : List Nat) :
    IsInterrupted produced (order ++ more) := by
  obtain ⟨index, form, needed, failure, hp, hi, hlt⟩ := h
  refine ⟨index, form, needed, failure, hp, hi, ?_⟩
  rw [List.count_append]
  omega

namespace Batch

/-- No task of the batch was interrupted, and every future has moved as often as it had a turn. -/
structure Calm (produced : List Produced) (order : List Nat) (b : Batch) : Prop where
  interrupted : b.interrupted = false
  futures : b.futures = (futuresFrom 0 produced).map
    fun (i, p) => (i, (Progress.advance i)^[order.count i] p)

theorem calm_start (produced : List Produced) : Calm produced [] (Batch.start produced) :=
  ⟨rfl, (List.map_id _).symm⟩

namespace Calm

variable {b : Batch}

theorem nodup (h : Calm produced order b) : (b.futures.map Prod.fst).Nodup := by
  simpa [h.futures, Function.comp_def] using nodup_futuresFrom 0 produced

theorem lookup (h : Calm produced order b) {a : Awaitable}
    (ha : produced[index]? = some (.awaitable a)) :
    b.futures.lookup index =
      some ((Progress.advance index)^[order.count index] (Progress.initial a)) := by
  rw [h.futures, lookup_map fun i => (Progress.advance i)^[order.count i],
    lookup_of_mem (nodup_futuresFrom 0 produced) (mem_futuresFrom ha)]
  rfl

theorem exists_of_lookup (h : Calm produced order b) {p : Progress}
    (hl : b.futures.lookup index = some p) :
    ∃ a, produced[index]? = some (.awaitable a) ∧
      p = (Progress.advance index)^[order.count index] (Progress.initial a) := by
  have hm := mem_of_lookup hl
  rw [h.futures] at hm
  obtain ⟨e, he, heq⟩ := List.mem_map.mp hm
  obtain ⟨a, ha, hi⟩ := initial_of_mem_futuresFrom he
  obtain ⟨rfl, rfl⟩ := Prod.mk.inj heq
  exact ⟨a, ha, by rw [hi]⟩

/-- A task that is interrupted in a turn has come to its interruption by then. -/
theorem resume_eq (h : Calm produced order b) {turn : Nat}
    (hno : ¬ IsInterrupted produced (order ++ [turn])) :
    b.resume turn = { b with
      events := b.events ++ b.turnEvents turn
      futures := advanceAt turn b.futures
      failure := b.failure.or (b.turnFailure? turn) } := by
  refine resume_eq_of_uninterrupted h.interrupted h.nodup fun p failure hl ht hf => ?_
  obtain ⟨a, ha, rfl⟩ := h.exists_of_lookup hl
  obtain ⟨hr, hends⟩ := Progress.failure?_advance_iterate_initial_iff.mp hf
  cases a with
  | task form needed result =>
    obtain rfl : result = .error failure := Option.some.inj hr
    by_contra hi
    exact hno ⟨turn, form, needed, failure, ha, by simpa using hi, hends⟩
  | future own =>
    rw [Progress.isTask_iterate_advance (by cases own <;> rfl)] at ht
    cases ht
  | promise own =>
    rw [Progress.isTask_iterate_advance rfl] at ht
    cases ht

theorem resume (h : Calm produced order b) {turn : Nat}
    (hno : ¬ IsInterrupted produced (order ++ [turn])) :
    Calm produced (order ++ [turn]) (b.resume turn) := by
  rw [h.resume_eq hno]
  refine ⟨h.interrupted, ?_⟩
  change advanceAt turn b.futures = _
  rw [h.futures, advanceAt, List.map_map]
  refine List.map_congr_left fun e _ => ?_
  obtain ⟨i, p⟩ := e
  have hcount := count_concat order turn i
  by_cases hi : i = turn
  · subst hi
    simp [hcount, Function.iterate_succ_apply']
  · simp [hcount, hi, Ne.symm hi]

/-- The turn in which a task comes to its interruption interrupts the batch. -/
theorem interrupted_resume (h : Calm produced order b) {turn : Nat}
    (hno : ¬ IsInterrupted produced order) (hyes : IsInterrupted produced (order ++ [turn])) :
    (b.resume turn).interrupted = true ∧ (b.resume turn).failure.isSome = true := by
  obtain ⟨index, form, needed, failure, hp, hi, hlt⟩ := hyes
  have hle : order.count index ≤ needed := by
    by_contra hgt
    exact hno ⟨index, form, needed, failure, hp, hi, by omega⟩
  have hturn : turn = index := by
    by_contra hne
    rw [count_concat, if_neg hne] at hlt
    omega
  subst hturn
  have ht : ((Progress.advance turn)^[order.count turn]
      (Progress.initial (.task form needed (.error failure)))).isTask = true :=
    Progress.isTask_iterate_ready hle turn (.error failure)
  have hf : (((Progress.advance turn)^[order.count turn]
      (Progress.initial (.task form needed (.error failure)))).advance turn).failure? =
        some failure := Progress.failure?_advance_iterate_initial_iff.mpr ⟨rfl, hlt⟩
  have hresume := resume_of_interrupting h.interrupted (h.lookup hp) ht hf hi
  exact ⟨hresume.1, by rw [hresume.2, Option.isSome_some]⟩

end Calm

theorem resumeAll_concat (b : Batch) (order : List Nat) (turn : Nat) :
    b.resumeAll (order ++ [turn]) = (b.resumeAll order).resume turn := by
  rw [resumeAll, List.foldl_append]
  rfl

theorem calm_resumeAll (h : ¬ IsInterrupted produced order) :
    Calm produced order ((Batch.start produced).resumeAll order) := by
  induction order using List.reverseRecOn with
  | nil => exact calm_start produced
  | append_singleton order turn ih =>
    rw [resumeAll_concat]
    exact (ih fun hi => h (hi.append [turn])).resume h

theorem interrupted_resumeAll (h : IsInterrupted produced order) :
    ((Batch.start produced).resumeAll order).interrupted = true ∧
      ((Batch.start produced).resumeAll order).failure.isSome = true := by
  induction order using List.reverseRecOn with
  | nil =>
    obtain ⟨_, _, _, _, -, -, hlt⟩ := h
    simp at hlt
  | append_singleton order turn ih =>
    rw [resumeAll_concat]
    by_cases hi : IsInterrupted produced order
    · have hsame : ((Batch.start produced).resumeAll order).resume turn =
          (Batch.start produced).resumeAll order := by rw [resume, if_pos (ih hi).1]
      rw [hsame]
      exact ih hi
    · exact (calm_resumeAll hi).interrupted_resume hi h

/-- Before any turn the failures count in the order of the modules. -/
theorem failure_start (produced : List Produced) :
    ((Batch.start produced).failure = none ∧
      ∀ index failure, ¬ HasFailed produced [] index failure) ∨
      ∃ index failure, (Batch.start produced).failure = some failure ∧
        FailsFirst produced [] index failure := by
  have hfailed : ∀ index failure, HasFailed produced [] index failure ↔
      ∃ p, (index, p) ∈ futuresFrom 0 produced ∧ p.failure? = some failure := by
    intro index failure
    constructor
    · rintro ⟨a, ha, hends⟩
      exact ⟨_, mem_futuresFrom ha, Progress.failure?_iterate_initial_iff.mpr hends⟩
    · rintro ⟨p, hm, hp⟩
      obtain ⟨a, ha, rfl⟩ := initial_of_mem_futuresFrom hm
      exact ⟨a, ha, Progress.failure?_iterate_initial_iff.mp hp⟩
  cases hf : (Batch.start produced).failure with
  | none =>
    refine .inl ⟨rfl, fun index failure h => ?_⟩
    obtain ⟨p, hm, hp⟩ := (hfailed index failure).mp h
    have hnone := List.findSome?_eq_none_iff.mp hf _ hm
    simp [hp] at hnone
  | some failure =>
    obtain ⟨before, e, after, hsplit, hown, hnone⟩ := List.findSome?_eq_some_iff.mp hf
    have hm : e ∈ futuresFrom 0 produced := hsplit ▸ List.mem_append_right _ (List.mem_cons_self ..)
    have hfirst : HasFailed produced [] e.1 failure := (hfailed _ _).mpr ⟨e.2, hm, hown⟩
    refine .inr ⟨e.1, failure, rfl, [], [], rfl, hfirst, fun other own hother => ?_, ?_⟩
    · obtain ⟨p, hp, hpf⟩ := (hfailed other own).mp hother
      have hsorted := pairwise_futuresFrom 0 produced
      rw [hsplit] at hsorted hp
      rcases List.mem_append.mp hp with hb | hb
      · have := hnone _ hb
        simp [hpf] at this
      · rcases List.mem_cons.mp hb with he | ha
        · exact Nat.le_of_eq (congrArg Prod.fst he).symm
        · exact Nat.le_of_lt
            ((List.pairwise_cons.mp (List.pairwise_append.mp hsorted).2.1).1 _ ha)
    · intro earlier rest hrest hne
      exact absurd (List.append_eq_nil_iff.mp hrest.symm).2 hne

/-- A turn brings a failure to light if it is the turn in which a module fails. -/
theorem hasFailed_concat_iff (h : ¬ IsInterrupted produced order) {turn : Nat}
    (hnone : ∀ index failure, ¬ HasFailed produced order index failure) :
    HasFailed produced (order ++ [turn]) index failure ↔
      index = turn ∧
        ((Batch.start produced).resumeAll order).turnFailure? turn = some failure := by
  have hcount := count_concat order turn index
  constructor
  · rintro ⟨a, ha, hr, hl⟩
    have hnot := fun hle => hnone index failure ⟨a, ha, hr, hle⟩
    have hturn : turn = index := by
      by_contra hne
      rw [hcount, if_neg hne] at hl
      exact hnot hl
    subst hturn
    refine ⟨rfl, ?_⟩
    have hnext := Progress.failure?_iterate_initial_iff.mpr ⟨hr, hl⟩
    rw [hcount, if_pos rfl, Function.iterate_succ_apply'] at hnext
    have hl' := (calm_resumeAll h).lookup ha
    -- Work that is not pending would have failed before this turn.
    cases hp : ((Progress.advance turn)^[order.count turn] (Progress.initial a)).isPending with
    | true => simpa [turnFailure?, hl', Option.filter, hp] using hnext
    | false =>
      rw [Progress.advance, Progress.turn_of_not_pending hp] at hnext
      exact absurd ⟨a, ha, Progress.failure?_iterate_initial_iff.mp hnext⟩ (hnone turn failure)
  · rintro ⟨rfl, hf⟩
    obtain ⟨p, hp, hown⟩ := Option.bind_eq_some_iff.mp hf
    have hl := (Option.filter_eq_some_iff.mp hp).1
    obtain ⟨a, ha, rfl⟩ := (calm_resumeAll h).exists_of_lookup hl
    refine ⟨a, ha, Progress.failure?_iterate_initial_iff.mp ?_⟩
    rw [hcount, if_pos rfl, Function.iterate_succ_apply']
    exact hown

/-- After any turns the failure noted is the one that was the first in time. -/
theorem failure_resumeAll_start (h : ¬ IsInterrupted produced order) :
    (((Batch.start produced).resumeAll order).failure = none ∧
        ∀ index failure, ¬ HasFailed produced order index failure) ∨
      ∃ index failure, ((Batch.start produced).resumeAll order).failure = some failure ∧
        FailsFirst produced order index failure := by
  induction order using List.reverseRecOn with
  | nil => exact failure_start produced
  | append_singleton order turn ih =>
    have hbefore : ¬ IsInterrupted produced order := fun hi => h (hi.append [turn])
    have hstep : ((Batch.start produced).resumeAll (order ++ [turn])).failure =
        ((Batch.start produced).resumeAll order).failure.or
          (((Batch.start produced).resumeAll order).turnFailure? turn) := by
      rw [resumeAll_concat]
      exact congrArg Batch.failure ((calm_resumeAll hbefore).resume_eq h)
    rcases ih hbefore with ⟨hf, hnone⟩ | ⟨index, failure, hf, before, after, hsplit, hfirst⟩
    · rw [hf, Option.none_or] at hstep
      cases ht : ((Batch.start produced).resumeAll order).turnFailure? turn with
      | none =>
        refine .inl ⟨hstep.trans ht, fun index failure hfailed => ?_⟩
        have hs := ((hasFailed_concat_iff hbefore hnone).mp hfailed).2
        simp [ht] at hs
      | some failure =>
        refine .inr ⟨turn, failure, hstep.trans ht, order ++ [turn], [], by simp,
          (hasFailed_concat_iff hbefore hnone).mpr ⟨rfl, ht⟩, fun other own hother => ?_, ?_⟩
        · exact Nat.le_of_eq ((hasFailed_concat_iff hbefore hnone).mp hother).1.symm
        · intro earlier rest hrest hne other own hother
          cases rest using List.reverseRecOn with
          | nil => exact hne rfl
          | append_singleton rest last =>
            rw [← List.append_assoc] at hrest
            have hinit := (List.append_inj' hrest rfl).1
            exact hnone other own (hinit ▸ hother.append rest)
    · refine .inr ⟨index, failure, ?_, before, after ++ [turn], by simp [hsplit], hfirst⟩
      rw [hstep, hf]
      rfl

theorem failure_resumeAll_of_failsFirst (h : ¬ IsInterrupted produced order)
    (hfirst : FailsFirst produced order index failure) :
    ((Batch.start produced).resumeAll order).failure = some failure := by
  rcases failure_resumeAll_start h with ⟨-, hnone⟩ | ⟨index', failure', hf, hfirst'⟩
  · obtain ⟨before, after, rfl, hfailed, -⟩ := hfirst
    exact absurd (hfailed.append after) (hnone index failure)
  · rw [hf, (hfirst.unique hfirst').2]

end Batch

end SchemaLoom
