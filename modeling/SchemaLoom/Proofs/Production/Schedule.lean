import Mathlib.Data.List.FinRange
import SchemaLoom.Proofs.Production.Calls

/-! Producing modules of which none fails. In whatever order they get their turns, the values come
back in the order of the modules, and if nothing has to be awaited, producing them together is the
same as producing them in turn. -/

namespace SchemaLoom

theorem putResults_finished (produced : List Produced) (index : Nat) (value : ModuleValue)
    (rest : List (Nat × Progress)) :
    putResults produced ((index, .finished (.ok value)) :: rest) =
      putResults (produced.set index (.value value)) rest := rfl

variable {produced : List Produced} {values : List ModuleValue}

theorem putResults_futuresFrom (h : produced.map Produced.value? = values.map some)
    (before : List Produced) (move : Nat → Progress → Progress)
    (hmove : ∀ e ∈ futuresFrom before.length produced, ∀ value,
      e.2.outcome? = some (.ok value) → move e.1 e.2 = .finished (.ok value)) :
    putResults (before ++ produced)
        ((futuresFrom before.length produced).map fun (i, p) => (i, move i p)) =
      .ok (before ++ values.map Produced.value) := by
  -- What stands in `before` has its value already, so the next module has the index of its length.
  induction produced generalizing before values with
  | nil =>
    obtain rfl : values = [] := by simpa using h.symm
    rfl
  | cons p rest ih =>
    cases values with
    | nil => simp at h
    | cons value others =>
      obtain ⟨hp, hrest⟩ := List.cons.inj h
      have hnext := ih hrest (before ++ [.value value])
      rw [List.length_append, List.length_singleton] at hnext
      cases p with
      | value own =>
        obtain rfl : own = value := Option.some.inj hp
        have hr := hnext hmove
        simpa [futuresFrom] using hr
      | awaitable a =>
        have hown : move before.length (Progress.initial a) = .finished (.ok value) :=
          hmove _ (List.mem_cons_self ..) value (Produced.outcome?_of_value? hp)
        have hr := hnext fun e he => hmove e (List.mem_cons_of_mem _ he)
        simp only [futuresFrom, List.map_cons, hown, putResults_finished]
        simpa [List.set_append] using hr

theorem mapM_toValue (values : List ModuleValue) :
    (values.map Produced.value).mapM Produced.toValue = .ok values := by
  rw [List.mapM_map]
  exact (List.mapM_pure (f := id)).trans (by simp; rfl)

namespace Batch

theorem thriving_start (h : produced.map Produced.value? = values.map some) :
    (Batch.start produced).Thriving := by
  have hvalue : ∀ e ∈ futuresFrom 0 produced, ∃ value, e.2.outcome? = some (.ok value) := by
    intro e he
    obtain ⟨a, ha, hi⟩ := initial_of_mem_futuresFrom he
    have hv := bind_getElem?_of_map_eq h e.1
    rw [ha] at hv
    have hlt : e.1 < values.length := by
      have := congrArg List.length h
      have hlt := (List.getElem?_eq_some_iff.mp ha).1
      simp only [List.length_map] at this
      omega
    rw [List.getElem?_eq_getElem hlt] at hv
    exact ⟨values[e.1], hi ▸ Produced.outcome?_of_value? hv⟩
  refine ⟨?_, rfl, nodup_futuresFrom 0 produced, hvalue⟩
  refine List.findSome?_eq_none_iff.mpr fun e he => ?_
  obtain ⟨value, hv⟩ := hvalue e he
  exact Progress.failure?_eq_none hv

theorem story_start (produced : List Produced) (index : Nat) :
    (Batch.start produced).story index =
      if (produced[index]?).any Produced.isTask then [.started index, .ended index] else [] := by
  have hl := lookup_futuresFrom 0 index produced
  rw [Nat.zero_add] at hl
  simp only [story, start, List.filter_nil, List.nil_append, hl]
  cases produced[index]? with
  | none => rfl
  | some p => exact p.coming_initial index

/-- Each future has the turns it needs. -/
def Suffices (order : List Nat) (produced : List Produced) : Prop :=
  ∀ index p, produced[index]? = some p → lastRound p ≤ order.count index

variable {order : List Nat}

theorem iterate_of_suffices (horder : Suffices order produced) {e : Nat × Progress}
    (he : e ∈ futuresFrom 0 produced) {value : ModuleValue}
    (hv : e.2.outcome? = some (.ok value)) :
    (Progress.advance e.1)^[order.count e.1] e.2 = .finished (.ok value) := by
  obtain ⟨a, ha, hi⟩ := initial_of_mem_futuresFrom he
  refine Progress.iterate_advance_eq_finished hv ?_
  rw [hi] at hv ⊢
  rw [Produced.turnsLeft_initial hv]
  exact horder e.1 _ ha

theorem results_resumeAll_start (h : produced.map Produced.value? = values.map some)
    (horder : Suffices order produced) :
    ((Batch.start produced).resumeAll order).results produced = .ok values := by
  have ht := thriving_start h
  have hp := putResults_futuresFrom h [] (fun i => (Progress.advance i)^[order.count i])
    fun e he value hv => iterate_of_suffices horder he hv
  have hf : ((Batch.start produced).resumeAll order).futures =
      (futuresFrom 0 produced).map fun (i, p) => (i, (Progress.advance i)^[order.count i] p) :=
    ht.steady.futures_resumeAll order
  have hput : putResults produced ((Batch.start produced).resumeAll order).futures =
      .ok (values.map Produced.value) := hf ▸ hp
  rw [results, (ht.resumeAll order).failure]
  simp only [hput]
  exact mapM_toValue values

/-- What is seen of a module in the end: if it is a task, it has run once. -/
theorem filter_events_resumeAll_start (h : produced.map Produced.value? = values.map some)
    (horder : Suffices order produced) (index : Nat) :
    ((Batch.start produced).resumeAll order).events.filter (·.index = index) =
      if (produced[index]?).any Produced.isTask then [.started index, .ended index] else [] := by
  have ht := thriving_start h
  have hs := (ht.story_resumeAll order index).trans (story_start produced index)
  rw [← hs, story, ht.steady.futures_resumeAll order,
    lookup_map fun i => (Progress.advance i)^[order.count i]]
  cases hl : (Batch.start produced).futures.lookup index with
  | none => simp
  | some p =>
    have hm := mem_of_lookup hl
    obtain ⟨value, hv⟩ := ht.value _ hm
    have hfin := iterate_of_suffices horder hm hv
    simp only [Option.map_some, hfin]
    simp [Progress.coming]

theorem finished_resumeAll_start (h : produced.map Produced.value? = values.map some)
    (horder : Suffices order produced) {e : Nat × Progress}
    (he : e ∈ ((Batch.start produced).resumeAll order).futures) :
    ∃ value, e.2 = .finished (.ok value) := by
  have ht := thriving_start h
  rw [ht.steady.futures_resumeAll order] at he
  obtain ⟨own, hown, rfl⟩ := List.mem_map.mp he
  obtain ⟨value, hv⟩ := ht.value _ hown
  exact ⟨value, iterate_of_suffices horder hown hv⟩

theorem finish_of_failure (b : Batch) (h : b.failure = none) (closing : List Nat) :
    b.finish closing = b := by
  simp [finish, isCancelling, h]

theorem resumeAll_of_no_futures (b : Batch) (h : b.futures = []) (order : List Nat) :
    b.resumeAll order = b := by
  have hstep : ∀ index, b.resume index = b := by
    intro index
    simp [resume, h]
  induction order with
  | nil => rfl
  | cons index rest ih =>
    change (b.resume index).resumeAll rest = b
    rw [hstep, ih]

end Batch

section Eager

variable {modules : List Given}

theorem futuresFrom_map_value (values : List ModuleValue) (index : Nat) :
    futuresFrom index (values.map Produced.value) = [] := by
  induction values generalizing index with
  | nil => rfl
  | cons _ rest ih => exact ih (index + 1)

theorem discardFrom_map_value (values : List ModuleValue) (index : Nat) :
    discardFrom index (values.map Produced.value) = ([], none) := by
  induction values generalizing index with
  | nil => rfl
  | cons _ rest ih =>
    have hrest := ih (index + 1)
    simp [discardFrom, Produced.discardFailure?, Produced.discardEvents, hrest]

theorem produce_of_not_awaitable {given : Given} (h : given.isAwaitable = false) (index : Nat) :
    (∃ value, (given.produce index).2 = .ok (.value value)) ∨
      ∃ failure, (given.produce index).2 = .error failure := by
  cases given with
  | eager own =>
    cases own with
    | value value => exact .inl ⟨value, rfl⟩
    | awaitable a => simp [Given.isAwaitable, Given.produced?, Produced.isAwaitable] at h
  | producer result =>
    cases result with
    | error failure => exact .inr ⟨failure, rfl⟩
    | ok own =>
      cases own with
      | value value => exact .inl ⟨value, rfl⟩
      | awaitable a => simp [Given.isAwaitable, Given.produced?, Produced.isAwaitable] at h

/-- Production in turn makes the same calls and comes to the values, or to the failure of the first
producer that raises. -/
theorem produceInTurn_eq (h : ∀ given ∈ modules, given.isAwaitable = false) (index : Nat) :
    ∃ values : List ModuleValue,
      (produceFrom index modules).produced = values.map Produced.value ∧
      produceInTurn index modules =
        ⟨(produceFrom index modules).events,
          match (produceFrom index modules).failure with
          | some failure => .error failure
          | none => .ok values,
          []⟩ := by
  induction modules generalizing index with
  | nil => exact ⟨[], rfl, rfl⟩
  | cons given rest ih =>
    have hgiven := produce_of_not_awaitable (h given (List.mem_cons_self ..)) index
    obtain ⟨values, hvalues, hrest⟩ :=
      ih (fun g hg => h g (List.mem_cons_of_mem given hg)) (index + 1)
    cases hg : given.produce index with
    | mk events result =>
      rw [hg] at hgiven
      obtain ⟨value, rfl⟩ | ⟨failure, rfl⟩ := hgiven
      · refine ⟨value :: values, by simp [produceFrom, hg, hvalues], ?_⟩
        simp only [produceInTurn, produceFrom, hg, hrest]
        cases (produceFrom (index + 1) rest).failure <;> rfl
      · refine ⟨[], by simp [produceFrom, hg], ?_⟩
        simp only [produceInTurn, produceFrom, hg]

/-- If nothing has to be awaited, the order of turns does not matter at all, and neither does it
matter whether modules are produced at the same time. -/
theorem produceTogether_eq_produceInTurn (h : ∀ given ∈ modules, given.isAwaitable = false)
    (schedule : List Produced → List Nat) :
    produceTogether schedule modules = produceInTurn 0 modules := by
  obtain ⟨values, hvalues, hturn⟩ := produceInTurn_eq h 0
  rw [hturn, produceTogether, produceClosing]
  simp only [hvalues]
  cases hf : (produceFrom 0 modules).failure with
  | some failure => simp [discardFrom_map_value]
  | none =>
    have hstart : Batch.start (values.map Produced.value) = ⟨[], [], none, false⟩ := by
      simp [Batch.start, futuresFrom_map_value]
    have hresult : Batch.results (values.map Produced.value) ⟨[], [], none, false⟩ = .ok values :=
      mapM_toValue values
    simp only [hstart]
    rw [Batch.resumeAll_of_no_futures _ rfl, Batch.finish_of_failure _ rfl, hresult]
    simp

end Eager

/-- An order of turns in which every module has the turns it needs. -/
def Completes (order : List Nat) (modules : List Given) : Prop :=
  ∀ index (_h : index < modules.length), modules[index].turns ≤ order.count index

instance (order : List Nat) (modules : List Given) : Decidable (Completes order modules) :=
  inferInstanceAs (Decidable (∀ index (_h : index < modules.length), _ ≤ _))

theorem Completes.suffices {order : List Nat} {modules : List Given}
    (h : Completes order modules) (hproduced : modules.map Given.produced? = produced.map some) :
    Batch.Suffices order produced := by
  intro index p hp
  have hg := bind_getElem?_of_map_eq hproduced index
  rw [hp] at hg
  obtain ⟨given, hgiven, hown⟩ := Option.bind_eq_some_iff.mp hg
  obtain ⟨hlt, rfl⟩ := List.getElem?_eq_some_iff.mp hgiven
  have hturns := h index hlt
  rwa [Given.turns, hown] at hturns

section Rounds

theorem failingRound?_eq_none {p : Produced} {value : ModuleValue} (h : p.value? = some value) :
    failingRound? p = none := by
  cases p with
  | value _ => rfl
  | awaitable a =>
    have ho := Produced.outcome?_of_value? h
    cases a with
    | future own =>
      cases own with
      | none => rfl
      | some result =>
        obtain rfl : result = .ok value := Option.some.inj ho
        rfl
    | promise result =>
      obtain rfl : result = .ok value := Option.some.inj ho
      rfl
    | task form turns result =>
      obtain rfl : result = .ok value := Option.some.inj ho
      rfl

theorem lastRound_le_roundCount (h : produced.map Produced.value? = values.map some) {p : Produced}
    (hp : p ∈ produced) : lastRound p ≤ roundCount produced := by
  have hnone : produced.filterMap failingRound? = [] := by
    refine List.filterMap_eq_nil_iff.mpr fun q hq => ?_
    have hv : q.value? ∈ values.map some := h ▸ List.mem_map_of_mem hq
    obtain ⟨value, -, hvalue⟩ := List.mem_map.mp hv
    exact failingRound?_eq_none hvalue.symm
  have hm : lastRound p ∈ produced.map lastRound := List.mem_map_of_mem hp
  rw [roundCount, hnone]
  exact List.le_max?_getD_of_mem hm

theorem min_le_count_flatMap_range {m : Nat} {index : Nat} {round : Nat → List Nat}
    (h : ∀ i < m, index ∈ round i) (n : Nat) :
    min m n ≤ ((List.range n).flatMap round).count index := by
  induction n with
  | zero => simp
  | succ n ih =>
    rw [List.range_succ, List.flatMap_append, List.count_append, List.flatMap_singleton]
    by_cases hn : n < m
    · have hone := List.count_pos_iff.mpr (h n hn)
      omega
    · omega

/-- Turns that are given in rounds suffice, if nothing fails. -/
theorem suffices_fairSchedule (h : produced.map Produced.value? = values.map some) :
    Batch.Suffices (fairSchedule produced) produced := by
  intro index p hp
  obtain ⟨hlt, hget⟩ := List.getElem?_eq_some_iff.mp hp
  have hle := lastRound_le_roundCount h (hget ▸ List.getElem_mem hlt)
  have hround : ∀ i < lastRound p, index ∈ tasksInRound produced (i + 1) := by
    intro i hi
    refine List.mem_filter.mpr ⟨List.mem_range.mpr hlt, ?_⟩
    simpa [hp] using Nat.succ_le_of_lt hi
  have hcount := min_le_count_flatMap_range hround (roundCount produced)
  rw [fairSchedule]
  omega

end Rounds

/-- A run in which every module comes to its value, whatever its turns were: the schema is the one
of the values in the order of the modules, and each module has been called or has run once. -/
structure KeepsModuleOrder (modules : List Given) (values : List ModuleValue)
    (callback : Option Callback) (run : SchemaRun) : Prop where
  result : run.production.result = .ok values
  settled : run.settled = settle (buildFromValues values).outcome.1 callback
  records : run.records = (buildFromValues values).outcome.2
  events : ∃ awaited,
    run.production.events = (modules.findIdxs Given.isProducer).map Event.called ++ awaited ∧
      ∀ index, awaited.filter (·.index = index) =
        if (modules[index]?).any Given.isTask then [.started index, .ended index] else []
  finished : ∀ e ∈ run.production.futures, ∃ value, e.2 = .finished (.ok value)

theorem any_isTask_of_map_eq {modules : List Given}
    (h : modules.map Given.produced? = produced.map some) (index : Nat) :
    (modules[index]?).any Given.isTask = (produced[index]?).any Produced.isTask := by
  rw [← bind_getElem?_of_map_eq h index]
  cases modules[index]? <;> rfl

/-- No order of turns has an influence on the schema that is built, or on the error. If nothing has
to be awaited, producing in turn does not differ. -/
theorem executableSchemaTogether_keepsModuleOrder (schedule : List Produced → List Nat)
    (modules : List Given) (values : List ModuleValue) (callback : Option Callback)
    (hvalues : modules.map Given.value? = values.map some)
    (horder : Completes (schedule (produceFrom 0 modules).produced) modules) :
    KeepsModuleOrder modules values callback
        (executableSchemaTogether schedule modules callback) ∧
      ((∀ given ∈ modules, given.isAwaitable = false) →
        executableSchemaTogether schedule modules none = executableSchemaInTurn modules) := by
  obtain ⟨produced, hproduced, hpv⟩ := exists_produced hvalues
  have hcalls := produceFrom_eq hproduced 0
  rw [hcalls] at horder
  have hs := horder.suffices hproduced
  have ht := (Batch.thriving_start hpv).resumeAll (schedule produced)
  have hrun : produceTogether schedule modules =
      ⟨(modules.findIdxs Given.isProducer).map Event.called ++
          ((Batch.start produced).resumeAll (schedule produced)).events,
        .ok values, ((Batch.start produced).resumeAll (schedule produced)).futures⟩ := by
    rw [produceTogether, produceClosing, hcalls]
    simp only [Batch.finish_of_failure _ ht.failure, Batch.results_resumeAll_start hpv hs]
  have hbuild : (produceTogether schedule modules).build = buildFromValues values := by
    rw [hrun]
    rfl
  refine ⟨⟨?_, ?_, ?_, ?_, ?_⟩, fun heager => ?_⟩
  · exact congrArg Production.result hrun
  · exact congrArg (fun work => settle work.outcome.1 callback) hbuild
  · exact congrArg (fun work => work.outcome.2) hbuild
  · refine ⟨_, congrArg Production.events hrun, fun index => ?_⟩
    rw [Batch.filter_events_resumeAll_start hpv hs, any_isTask_of_map_eq hproduced]
  · intro e he
    have hf : (executableSchemaTogether schedule modules callback).production.futures =
        ((Batch.start produced).resumeAll (schedule produced)).futures :=
      congrArg Production.futures hrun
    rw [hf] at he
    exact Batch.finished_resumeAll_start hpv hs he
  · exact congrArg (fun p => p.settle none) (produceTogether_eq_produceInTurn heager schedule)

/-- Tasks and a promise that come to their ends from the last to the first. -/
theorem executableSchemaTogether_keepsModuleOrder_lastFirst :
    let value (n : Int) : ModuleValue := .pair ⟨[]⟩ (.mapping [("Query", .integer n)])
    let modules : List Given :=
      [.producer (.ok (.awaitable (.task .coroutine 2 (.ok (value 0))))), .eager (.value (value 1)),
        .eager (.awaitable (.promise (.ok (value 2)))), .producer (.ok (.value (value 3))),
        .eager (.awaitable (.task .plain 1 (.ok (value 4))))]
    let values := [value 0, value 1, value 2, value 3, value 4]
    let eager : List Given := [.eager (.value (value 0)), .producer (.ok (.value (value 1)))]
    let schedule (_ : List Produced) : List Nat := [4, 0, 4, 2, 0, 0]
    modules.map Given.value? = values.map some ∧
      Completes (schedule (produceFrom 0 modules).produced) modules ∧
      KeepsModuleOrder modules values none (executableSchemaTogether schedule modules none) ∧
      executableSchemaTogether schedule eager none = executableSchemaInTurn eager := by
  intro value modules values eager schedule
  have hvalues : modules.map Given.value? = values.map some := rfl
  have horder : Completes (schedule (produceFrom 0 modules).produced) modules := by decide
  have hnone : ∀ given ∈ eager, given.isAwaitable = false := by decide
  refine ⟨hvalues, horder,
    (executableSchemaTogether_keepsModuleOrder schedule modules values none hvalues horder).1, ?_⟩
  exact (executableSchemaTogether_keepsModuleOrder schedule eager [value 0, value 1] none rfl
    (by decide)).2 hnone

end SchemaLoom
