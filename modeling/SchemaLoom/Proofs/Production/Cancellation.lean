import Mathlib
import SchemaLoom.Proofs.Production.Closing
import SchemaLoom.Proofs.Production.Failures

/-! Producing modules of which one is cancelled. A cancellation is no error, so it makes nobody
cancel what is still pending: the call ends, and the rest is left as it is. -/

namespace SchemaLoom

/-- Every awaitable has come to its result within the given turns. -/
def AllEnded (produced : List Produced) (turns : List Nat) : Prop :=
  ∀ (index : Nat) (a : Awaitable), produced[index]? = some (.awaitable a) →
    ∃ result, a.EndsWithin turns index result

/-- A run that ends with a failure, and with no schema. What was awaited is as the given order of
turns has left it: it has come to its result, or it is still pending. -/
structure EndsAtOnce (produced : List Produced) (order : List Nat) (failure : Failure)
    (run : SchemaRun) : Prop where
  raised : run.settled = ⟨.error failure, []⟩
  records : run.records = []
  left : ∀ (index : Nat) (a : Awaitable), produced[index]? = some (.awaitable a) →
    (∃ result, a.EndsWithin order index result ∧
      run.production.futures.lookup index = some (.finished result)) ∨
    ((∀ result, ¬ a.EndsWithin order index result) ∧
      ∃ p, run.production.futures.lookup index = some p ∧ p.isPending = true)

variable {produced : List Produced} {order : List Nat} {index : Nat} {failure : Failure}

namespace Progress

theorem isPending_or_eq_finished {p : Progress} {result : Except Failure ModuleValue}
    (h : p.outcome? = some result) : p.isPending = true ∨ p = .finished result := by
  cases p with
  | finished own =>
    obtain rfl : own = result := Option.some.inj h
    exact .inr rfl
  | cancelled => simp [outcome?] at h
  | _ => exact .inl rfl

/-- Work that nobody cancels is pending until it has come to its result. -/
theorem iterate_initial_cases (order : List Nat) (index : Nat) (a : Awaitable) :
    (∃ result, a.EndsWithin order index result ∧
      (advance index)^[order.count index] (Progress.initial a) = .finished result) ∨
    ((∀ result, ¬ a.EndsWithin order index result) ∧
      ((advance index)^[order.count index] (Progress.initial a)).isPending = true) := by
  have ho := outcome?_iterate_advance index (order.count index) (Progress.initial a)
  rw [outcome?_initial] at ho
  by_cases hends : ∃ result, a.EndsWithin order index result
  · obtain ⟨result, hends⟩ := hends
    exact .inl ⟨result, hends, iterate_initial_eq_finished_iff.mpr hends⟩
  · refine .inr ⟨fun result h => hends ⟨result, h⟩, ?_⟩
    cases hr : a.result? with
    | none =>
      -- Only a future that nobody gets done has no result.
      obtain rfl : a = .future none := by
        cases a with
        | future own => cases own <;> simp_all [Awaitable.result?]
        | _ => simp [Awaitable.result?] at hr
      have hfix : advance index (Progress.initial (.future none)) = .waiting none := rfl
      rw [Function.iterate_fixed hfix]
      rfl
    | some result =>
      rcases isPending_or_eq_finished (ho.trans hr) with hp | hp
      · exact hp
      · exact absurd ⟨result, iterate_initial_eq_finished_iff.mp hp⟩ hends

end Progress

namespace Batch

theorem isCancelling_resumeAll_start_iff (produced : List Produced) (order : List Nat) :
    ((Batch.start produced).resumeAll order).isCancelling = true ↔
      IsInterrupted produced order ∨
        ∃ index failure, FailsFirst produced order index failure ∧ failure.isError = true := by
  by_cases hi : IsInterrupted produced order
  · obtain ⟨hb, hf⟩ := interrupted_resumeAll hi
    obtain ⟨failure, hf⟩ := Option.isSome_iff_exists.mp hf
    simp [isCancelling, hf, hb, hi]
  · have hb := (calm_resumeAll hi).interrupted
    have hfirst : ∀ index failure, FailsFirst produced order index failure →
        ((Batch.start produced).resumeAll order).failure = some failure :=
      fun _ _ => failure_resumeAll_of_failsFirst hi
    constructor
    · intro h
      rcases failure_resumeAll_start hi with ⟨hf, -⟩ | ⟨index, failure, hf, hown⟩
      · simp [isCancelling, hf] at h
      · exact .inr ⟨index, failure, hown, by simpa [isCancelling, hf, hb] using h⟩
    · rintro (h | ⟨index, failure, hown, herror⟩)
      · exact absurd h hi
      · simp [isCancelling, hfirst index failure hown, herror]

theorem keys_proceed (b : Batch) (index : Nat) :
    (b.proceed index).futures.map Prod.fst = b.futures.map Prod.fst := by
  unfold proceed
  split
  · rfl
  · simp [replace, Function.comp_def]

theorem keys_resume (b : Batch) (index : Nat) :
    (b.resume index).futures.map Prod.fst = b.futures.map Prod.fst := by
  unfold resume
  split
  · rfl
  · split
    · rfl
    · rename_i progress _
      cases (progress.turn index).2.failure? with
      | none => exact keys_proceed b index
      | some failure =>
        have hfail : ((b.proceed index).fail progress.isTask failure).futures =
            (b.proceed index).futures := by
          unfold fail
          split <;> rfl
        rw [← keys_proceed b index, ← hfail]
        rfl

theorem keys_resumeAll (b : Batch) (order : List Nat) :
    (b.resumeAll order).futures.map Prod.fst = b.futures.map Prod.fst := by
  induction order generalizing b with
  | nil => rfl
  | cons turn order ih => exact (ih (b.resume turn)).trans (keys_resume b turn)

namespace Calm

variable {b : Batch}

/-- What nobody cancels has ended or is pending, as the turns have left it. -/
theorem lookup_cases (h : Calm produced order b) {a : Awaitable}
    (ha : produced[index]? = some (.awaitable a)) :
    (∃ result, a.EndsWithin order index result ∧
      b.futures.lookup index = some (.finished result)) ∨
    ((∀ result, ¬ a.EndsWithin order index result) ∧
      ∃ p, b.futures.lookup index = some p ∧ p.isPending = true) := by
  rcases Progress.iterate_initial_cases order index a with ⟨result, hends, hp⟩ | ⟨hnot, hp⟩
  · exact .inl ⟨result, hends, by rw [h.lookup ha, hp]⟩
  · exact .inr ⟨hnot, _, h.lookup ha, hp⟩

theorem not_pending_iff (h : Calm produced order b) :
    (∀ e ∈ b.futures, e.2.isPending = false) ↔ AllEnded produced order := by
  constructor
  · intro hnone index a ha
    rcases h.lookup_cases ha with ⟨result, hends, -⟩ | ⟨-, p, hl, hp⟩
    · exact ⟨result, hends⟩
    · have := hnone _ (mem_of_lookup hl)
      simp [hp] at this
  · rintro hall ⟨own, p⟩ he
    have hl := lookup_of_mem h.nodup he
    obtain ⟨a, ha, rfl⟩ := h.exists_of_lookup hl
    obtain ⟨result, hends⟩ := hall own a ha
    rw [Progress.iterate_initial_eq_finished_iff.mpr hends]
    rfl

end Calm

theorem mem_closing_of_mem_resumeAll_start {closing : List Nat}
    (hclosing : ∀ (i : Nat) (a : Awaitable), produced[i]? = some (.awaitable a) → i ∈ closing) :
    ∀ e ∈ ((Batch.start produced).resumeAll order).futures, e.1 ∈ closing := by
  intro e he
  have hkey : e.1 ∈ (futuresFrom 0 produced).map Prod.fst := by
    have hkeys := keys_resumeAll (Batch.start produced) order
    exact hkeys ▸ List.mem_map_of_mem he
  obtain ⟨own, hown, hi⟩ := List.mem_map.mp hkey
  obtain ⟨a, ha, -⟩ := initial_of_mem_futuresFrom hown
  exact hi ▸ hclosing own.1 a ha

theorem not_pending_finish_iff {closing : List Nat}
    (hclosing : ∀ (i : Nat) (a : Awaitable), produced[i]? = some (.awaitable a) → i ∈ closing) :
    (∀ e ∈ (((Batch.start produced).resumeAll order).finish closing).futures,
        e.2.isPending = false) ↔
      IsInterrupted produced order ∨
        (∃ index failure, FailsFirst produced order index failure ∧ failure.isError = true) ∨
        AllEnded produced order := by
  have hiff := isCancelling_resumeAll_start_iff produced order
  rw [← or_assoc, ← hiff]
  cases hc : ((Batch.start produced).resumeAll order).isCancelling with
  | true =>
    have hnd : (((Batch.start produced).resumeAll order).futures.map Prod.fst).Nodup := by
      rw [keys_resumeAll]
      exact nodup_futuresFrom 0 produced
    have hnone := isPending_of_mem_finish hnd hc (mem_closing_of_mem_resumeAll_start hclosing)
    exact iff_of_true hnone (.inl rfl)
  | false =>
    have hcalm : ¬ IsInterrupted produced order := fun hi => by
      simp [hiff.mpr (.inl hi)] at hc
    rw [finish_of_not_isCancelling hc, (calm_resumeAll hcalm).not_pending_iff]
    simp

end Batch

/-- What is awaited together has all ended when the call ends, or it is cancelled because a task was
interrupted or because the first failure is an error. If the first failure is a cancellation, the
call ends with it, and what is pending is left pending. -/
theorem executableSchemaClosing_pending_iff (closing schedule : List Produced → List Nat)
    (modules : List Given) (produced : List Produced)
    (hproduced : modules.map Given.produced? = produced.map some)
    (hclosing : ∀ (index : Nat) (a : Awaitable), produced[index]? = some (.awaitable a) →
      index ∈ closing produced) :
    let order := schedule produced
    let run := executableSchemaClosing closing schedule modules none
    ((∀ e ∈ run.production.futures, e.2.isPending = false) ↔
      IsInterrupted produced order ∨
        (∃ index failure, FailsFirst produced order index failure ∧ failure.isError = true) ∨
        AllEnded produced order) ∧
    (¬ IsInterrupted produced order →
      ∀ index failure, FailsFirst produced order index failure → failure.isError = false →
        EndsAtOnce produced order failure run) := by
  intro order run
  let batch := ((Batch.start produced).resumeAll order).finish (closing produced)
  have hrun : produceClosing closing schedule modules =
      ⟨(modules.findIdxs Given.isProducer).map Event.called ++ batch.events,
        batch.results produced, batch.futures⟩ := produceClosing_eq hproduced closing schedule
  have hown : run.production.futures = batch.futures := congrArg Production.futures hrun
  refine ⟨hown ▸ Batch.not_pending_finish_iff hclosing, ?_⟩
  intro hcalm index failure hfirst herror
  have hf := Batch.failure_resumeAll_of_failsFirst hcalm hfirst
  have hnot : ((Batch.start produced).resumeAll order).isCancelling = false := by
    simp [Batch.isCancelling, hf, herror, (Batch.calm_resumeAll hcalm).interrupted]
  have hsame : batch = (Batch.start produced).resumeAll order :=
    Batch.finish_of_not_isCancelling hnot _
  have hresult : batch.results produced = .error failure := by
    rw [hsame]
    exact Batch.results_of_failure hf hnot produced
  have houtcome :
      (produceClosing closing schedule modules).build.outcome = (.error failure, []) := by
    rw [hrun, hresult]
    rfl
  refine ⟨?_, ?_, fun own a ha => ?_⟩
  · exact congrArg (fun outcome => settle outcome.1 none) houtcome
  · exact congrArg Prod.snd houtcome
  · rw [hown, hsame]
    exact (Batch.calm_resumeAll hcalm).lookup_cases ha

/-- One task of three is cancelled at its first turn. Of the others one has ended by then and one is
begun, and a future is never done. -/
theorem executableSchemaClosing_pending_iff_cancelled :
    let cancelled : Failure := .raised .cancelled "stop"
    let value : ModuleValue := .pair ⟨[]⟩ .null
    let produced : List Produced :=
      [.awaitable (.future none), .awaitable (.task .coroutine 3 (.ok value)), .value value,
        .awaitable (.task .plain 0 (.error cancelled)), .awaitable (.task .plain 0 (.ok value))]
    let modules : List Given := produced.map fun p => .producer (.ok p)
    let schedule (_ : List Produced) : List Nat := [1, 4, 3]
    FailsFirst produced (schedule produced) 3 cancelled ∧
      EndsAtOnce produced (schedule produced) cancelled
        (executableSchemaClosing moduleOrder schedule modules none) ∧
      ¬ ∀ e ∈ (executableSchemaClosing moduleOrder schedule modules none).production.futures,
        e.2.isPending = false := by
  intro cancelled value produced modules schedule
  have hproduced : modules.map Given.produced? = produced.map some := rfl
  have hclosing : ∀ (index : Nat) (a : Awaitable), produced[index]? = some (.awaitable a) →
      index ∈ moduleOrder produced := fun index a ha =>
    List.mem_range.mpr (List.getElem?_eq_some_iff.mp ha).1
  -- The only failure among what is awaited is the cancellation of one task.
  have honly : ∀ (index : Nat) (a : Awaitable) (failure : Failure),
      produced[index]? = some (.awaitable a) → a.result? = some (.error failure) →
        index = 3 ∧ failure = cancelled := by
    intro index a failure ha hr
    match index, ha with
    | 0, ha => cases ha; cases hr
    | 1, ha => cases ha; cases hr
    | 2, ha => cases ha
    | 3, ha => cases ha; cases hr; exact ⟨rfl, rfl⟩
    | 4, ha => cases ha; cases hr
    | n + 5, ha => cases ha
  have hcalm : ¬ IsInterrupted produced (schedule produced) := by
    rintro ⟨index, form, needed, failure, hp, hi, -⟩
    obtain ⟨-, rfl⟩ := honly index _ failure hp rfl
    cases hi
  have hfirst : FailsFirst produced (schedule produced) 3 cancelled := by
    have h3 : HasFailed produced (schedule produced) 3 cancelled := ⟨_, rfl, rfl, by decide⟩
    rcases Batch.failure_resumeAll_start hcalm with ⟨-, hnone⟩ | ⟨index, failure, -, hfirst⟩
    · exact absurd h3 (hnone 3 cancelled)
    · obtain ⟨before, after, -, ⟨a, ha, hr, -⟩, -⟩ := id hfirst
      obtain ⟨rfl, rfl⟩ := honly index a failure ha hr
      exact hfirst
  obtain ⟨hiff, hends⟩ := executableSchemaClosing_pending_iff moduleOrder schedule modules produced
    hproduced hclosing
  refine ⟨hfirst, hends hcalm 3 cancelled hfirst rfl, fun hnone => ?_⟩
  rcases hiff.mp hnone with hi | ⟨index, failure, hother, herror⟩ | hall
  · exact hcalm hi
  · rw [← (hfirst.unique hother).2] at herror
    cases herror
  · obtain ⟨result, hr, -⟩ := hall 0 _ rfl
    cases hr

/-- A task is cancelled, and the future beside it stays as it is when the call has ended. -/
theorem pendingFuture_leftBehind :
    let cancelled : Failure := .raised .cancelled "p"
    let produced : List Produced :=
      [.awaitable (.future none), .awaitable (.task .plain 0 (.error cancelled))]
    let run := executableSchemaTogether fairSchedule (produced.map Given.eager) none
    run.settled = ⟨.error cancelled, []⟩ ∧
      run.production.futures = [(0, .waiting none), (1, .finished (.error cancelled))] := by
  constructor <;> cbv

end SchemaLoom
