import SchemaLoom.Proofs.Production.Calls

/-! Production that stops before anything is awaited. What was produced by then is discarded, every
awaitable once, and nothing begins, unless a close function raises: then nothing behind it is
discarded, and what it raises is how production ends. What is given after the module that stops
production is not discarded, even if it is an awaitable that was there from the start. -/

namespace SchemaLoom

namespace Event

/-- Whether something is discarded, or has come of that. -/
def isDiscarding : Event → Bool
  | .discarded _ _ => true
  | .closed _ => true
  | .futureCancelled _ => true
  | _ => false

theorem filter_index_eq {events : List Event} {index : Nat} (h : ∀ e ∈ events, e.index = index)
    (j : Nat) : events.filter (·.index = j) = if index = j then events else [] := by
  by_cases hj : index = j
  · rw [if_pos hj]
    refine List.filter_eq_self.mpr fun e he => ?_
    simpa [h e he] using hj
  · rw [if_neg hj]
    refine List.filter_eq_nil_iff.mpr fun e he => ?_
    simpa [h e he] using hj

end Event

namespace Awaitable

theorem of_mem_discardEffect {a : Awaitable} {index : Nat} {event : Event}
    (h : event ∈ a.discardEffect index) :
    event = .closed index ∨ event = .futureCancelled index := by
  cases a with
  | future result =>
    cases result with
    | none => exact .inr (List.mem_singleton.mp h)
    | some _ => cases h
  | promise _ => exact .inr (List.mem_singleton.mp h)
  | task form _ _ =>
    cases form with
    | closable => exact .inl (List.mem_singleton.mp h)
    | _ => cases h

end Awaitable

namespace Produced

def discarding? : Produced → Option Discarding
  | .value _ => none
  | .awaitable a => a.discarding?

theorem of_mem_discardEvents {p : Produced} {index : Nat} {event : Event}
    (h : event ∈ p.discardEvents index) : event.isDiscarding = true ∧ event.index = index := by
  cases p with
  | value _ => cases h
  | awaitable a =>
    rcases List.mem_append.mp h with h | h
    · obtain ⟨how, -, rfl⟩ := List.mem_map.mp h
      exact ⟨rfl, rfl⟩
    · rcases Awaitable.of_mem_discardEffect h with rfl | rfl <;> exact ⟨rfl, rfl⟩

theorem count_discardEvents (p : Produced) (index : Nat) (how : Discarding) :
    (p.discardEvents index).count (.discarded index how) =
      if p.discarding? = some how then 1 else 0 := by
  cases p with
  | value _ => rfl
  | awaitable a =>
    have heffect : (a.discardEffect index).count (.discarded index how) = 0 := by
      refine List.count_eq_zero.mpr fun hm => ?_
      rcases Awaitable.of_mem_discardEffect hm with h | h <;> cases h
    rw [discardEvents, List.count_append, heffect, discarding?]
    cases ha : a.discarding? with
    | none => simp
    | some own => by_cases hown : own = how <;> simp [hown]

end Produced

section Discarded

variable {produced : List Produced}

theorem events_discardFrom_cons (p : Produced) (rest : List Produced) (index : Nat) :
    (discardFrom index (p :: rest)).1 = p.discardEvents index ++
      if p.discardFailure? = none then (discardFrom (index + 1) rest).1 else [] := by
  rw [discardFrom]
  cases p.discardFailure? <;> simp

/-- The first close function that raises decides. -/
theorem failure_discardFrom (produced : List Produced) (index : Nat) :
    (discardFrom index produced).2 = produced.findSome? Produced.discardFailure? := by
  induction produced generalizing index with
  | nil => rfl
  | cons p rest ih =>
    rw [discardFrom, List.findSome?_cons]
    cases p.discardFailure? with
    | some failure => rfl
    | none => exact ih (index + 1)

theorem le_index_of_mem_discardFrom {index : Nat} {event : Event}
    (h : event ∈ (discardFrom index produced).1) : index ≤ event.index := by
  induction produced generalizing index with
  | nil => cases h
  | cons p rest ih =>
    rw [events_discardFrom_cons] at h
    rcases List.mem_append.mp h with h | h
    · exact Nat.le_of_eq (Produced.of_mem_discardEvents h).2.symm
    · by_cases hnone : p.discardFailure? = none
      · rw [if_pos hnone] at h
        exact Nat.le_trans (Nat.le_succ index) (ih h)
      · rw [if_neg hnone] at h
        cases h

/-- Of every index that discarding gets to, the events are those of what was produced there. -/
theorem filter_discardFrom (produced : List Produced) (index i : Nat) :
    (discardFrom index produced).1.filter (·.index = index + i) =
      if ∀ p ∈ produced.take i, p.discardFailure? = none then
        (produced[i]?).elim [] (Produced.discardEvents (index + i))
      else [] := by
  induction produced generalizing index i with
  | nil => simp [discardFrom]
  | cons p rest ih =>
    have hown : ∀ e ∈ p.discardEvents index, e.index = index :=
      fun e he => (Produced.of_mem_discardEvents he).2
    rw [events_discardFrom_cons, List.filter_append, Event.filter_index_eq hown]
    cases i with
    | zero =>
      have hlater : (discardFrom (index + 1) rest).1.filter (·.index = index) = [] := by
        refine List.filter_eq_nil_iff.mpr fun e he => ?_
        have hle := le_index_of_mem_discardFrom he
        simp only [decide_eq_true_eq]
        omega
      by_cases hnone : p.discardFailure? = none <;> simp [hnone, hlater]
    | succ i =>
      have hindex : index + (i + 1) = index + 1 + i := by omega
      have hne : index ≠ index + (i + 1) := by omega
      rw [if_neg hne, List.nil_append, List.getElem?_cons_succ, List.take_succ_cons]
      simp only [List.forall_mem_cons]
      by_cases hnone : p.discardFailure? = none
      · rw [if_pos hnone, hindex, ih]
        simp [hnone]
      · simp [hnone]

end Discarded

namespace Given

/-- How the awaitable is discarded that a module is or is produced as. -/
def discarding? (given : Given) : Option Discarding := given.produced?.bind Produced.discarding?

def discardEvents (index : Nat) (given : Given) : List Event :=
  given.produced?.elim [] (Produced.discardEvents index)

/-- What is raised when the awaitable is discarded that a module is or is produced as. -/
def discardFailure? (given : Given) : Option Failure :=
  given.produced?.bind Produced.discardFailure?

theorem of_mem_discardEvents {given : Given} {index : Nat} {event : Event}
    (h : event ∈ given.discardEvents index) : event.isDiscarding = true ∧ event.index = index := by
  cases hp : given.produced? with
  | none =>
    rw [discardEvents, hp] at h
    cases h
  | some p =>
    rw [discardEvents, hp] at h
    exact Produced.of_mem_discardEvents h

theorem count_discardEvents (given : Given) (index : Nat) (how : Discarding) :
    (given.discardEvents index).count (.discarded index how) =
      if given.discarding? = some how then 1 else 0 := by
  cases h : given.produced? with
  | none => simp [discardEvents, discarding?, h]
  | some p =>
    have hp := p.count_discardEvents index how
    simpa [discardEvents, discarding?, h] using hp

/-- The failure of a producer that raises. -/
def raised? : Given → Option Failure
  | .producer (.error failure) => some failure
  | _ => none

/-- The failure of a module that does not come to a value without being awaited. -/
def failureInTurn? (given : Given) : Option Failure :=
  given.raised?.or (if given.isAwaitable then some .notSynchronous else none)

theorem exists_produced_of_raised? {given : Given} (h : given.raised? = none) :
    ∃ p, given.produced? = some p := by
  cases given with
  | eager p => exact ⟨p, rfl⟩
  | producer result =>
    cases result with
    | ok p => exact ⟨p, rfl⟩
    | error failure => cases h

end Given

/-- The first module that stops production is the one at an index. -/
structure StopsAt (stopping? : Given → Option Failure) (modules : List Given) (i : Nat)
    (failure : Failure) : Prop where
  stops : (modules[i]?).bind stopping? = some failure
  first : ∀ given ∈ modules.take i, stopping? given = none

/-- When production stops at an index, discarding gets to those modules up to there before which no
close function raises. -/
def Reaches (modules : List Given) (i j : Nat) : Prop :=
  j ≤ i ∧ ∀ given ∈ modules.take j, given.discardFailure? = none

instance (modules : List Given) (i j : Nat) : Decidable (Reaches modules i j) :=
  inferInstanceAs (Decidable (_ ∧ _))

/-- The first close function that raises has the last word on how production ends. -/
def endingFailure (modules : List Given) (i : Nat) (failure : Failure) : Failure :=
  ((modules.take (i + 1)).findSome? Given.discardFailure?).getD failure

/-- What comes of production that a failure stops at an index. All producers up to there were
called, in order, and after that all awaitables were discarded that discarding gets to. -/
structure Stopped (modules : List Given) (i : Nat) (failure : Failure) (p : Production) :
    Prop where
  result : p.result = .error (endingFailure modules i failure)
  futures : p.futures = []
  events : ∃ discards,
    p.events = ((modules.take (i + 1)).findIdxs Given.isProducer).map Event.called ++ discards ∧
    ∀ j, discards.filter (·.index = j) =
      if Reaches modules i j then (modules[j]?).elim [] (Given.discardEvents j) else []

theorem StopsAt.exists_split {stopping? : Given → Option Failure} {modules : List Given} {i : Nat}
    {failure : Failure} (h : StopsAt stopping? modules i failure) :
    ∃ before given after, modules = before ++ given :: after ∧ before.length = i ∧
      modules.take (i + 1) = before ++ [given] ∧ stopping? given = some failure ∧
      ∀ g ∈ before, stopping? g = none := by
  obtain ⟨given, hgiven, hstops⟩ := Option.bind_eq_some_iff.mp h.stops
  obtain ⟨hlt, rfl⟩ := List.getElem?_eq_some_iff.mp hgiven
  refine ⟨modules.take i, modules[i], modules.drop (i + 1), ?_, ?_, ?_, hstops, h.first⟩
  · rw [← List.drop_eq_getElem_cons hlt, List.take_append_drop]
  · exact List.length_take_of_le (Nat.le_of_lt hlt)
  · exact List.take_succ_eq_append_getElem hlt

/-! ### What stops at the same time -/

theorem exists_produced_of_forall {before : List Given} (h : ∀ g ∈ before, g.raised? = none) :
    ∃ produced : List Produced, before.map Given.produced? = produced.map some := by
  induction before with
  | nil => exact ⟨[], rfl⟩
  | cons given rest ih =>
    obtain ⟨p, hp⟩ := Given.exists_produced_of_raised? (h given (List.mem_cons_self ..))
    obtain ⟨produced, hproduced⟩ := ih fun g hg => h g (List.mem_cons_of_mem given hg)
    exact ⟨p :: produced, by rw [List.map_cons, List.map_cons, hp, hproduced]⟩

theorem Given.raised?_eq_some_iff {given : Given} {failure : Failure} :
    given.raised? = some failure ↔ given = .producer (.error failure) := by
  cases given with
  | eager p => simp [raised?]
  | producer result => cases result <;> simp [raised?]

theorem map_discardFailure? {before : List Given} {produced : List Produced}
    (h : before.map Given.produced? = produced.map some) :
    before.map Given.discardFailure? = produced.map Produced.discardFailure? := by
  calc
    before.map Given.discardFailure?
      = (before.map Given.produced?).map (·.bind Produced.discardFailure?) := by
        rw [List.map_map]
        rfl
    _ = produced.map Produced.discardFailure? := by
        rw [h, List.map_map]
        rfl

theorem findSome?_discardFailure? {before : List Given} {produced : List Produced}
    (h : before.map Given.produced? = produced.map some) :
    before.findSome? Given.discardFailure? = produced.findSome? Produced.discardFailure? := by
  have hfailures := congrArg (List.findSome? id) (map_discardFailure? h)
  simpa [List.findSome?_map] using hfailures

theorem forall_take_discardFailure? {before : List Given} {produced : List Produced}
    (h : before.map Given.produced? = produced.map some) (j : Nat) :
    (∀ p ∈ produced.take j, p.discardFailure? = none) ↔
      ∀ given ∈ before.take j, given.discardFailure? = none := by
  have hfailures : (before.take j).map Given.discardFailure? =
      (produced.take j).map Produced.discardFailure? := by
    rw [List.map_take, List.map_take, map_discardFailure? h]
  have hleft : (∀ failure? ∈ (produced.take j).map Produced.discardFailure?, failure? = none) ↔
      ∀ p ∈ produced.take j, p.discardFailure? = none := List.forall_mem_map
  rw [← hleft, ← hfailures, List.forall_mem_map]

/-- If a producer raises an error, nothing is begun. -/
theorem stopped_of_raises {modules : List Given} {i : Nat} {failure : Failure}
    (h : StopsAt Given.raised? modules i failure) (herror : failure.isError = true)
    (closing schedule : List Produced → List Nat) :
    Stopped modules i failure (produceClosing closing schedule modules) := by
  obtain ⟨before, given, after, rfl, rfl, htake, hgiven, hfirst⟩ := h.exists_split
  have hraises := Given.raised?_eq_some_iff.mp hgiven
  obtain ⟨produced, hproduced⟩ := exists_produced_of_forall hfirst
  have hcalls : produceFrom 0 (before ++ given :: after) =
      ⟨((before ++ [given]).findIdxs Given.isProducer).map Event.called, produced,
        some failure⟩ := by
    rw [List.findIdxs_append, List.findIdxs_singleton, produceFrom_append hproduced]
    simp [hraises, produceFrom, Given.produce, Given.isProducer]
  have hending : (discardFrom 0 produced).2.getD failure =
      endingFailure (before ++ given :: after) before.length failure := by
    rw [endingFailure, htake, List.findSome?_append, findSome?_discardFailure? hproduced,
      failure_discardFrom, hraises]
    cases produced.findSome? Produced.discardFailure? <;> rfl
  have hclosing : produceClosing closing schedule (before ++ given :: after) =
      ⟨((before ++ [given]).findIdxs Given.isProducer).map Event.called ++
        (discardFrom 0 produced).1,
        .error (endingFailure (before ++ given :: after) before.length failure), []⟩ := by
    rw [produceClosing, hcalls, ← hending]
    simp [herror]
  rw [hclosing]
  refine ⟨rfl, rfl, (discardFrom 0 produced).1, by rw [htake], fun j => ?_⟩
  have hfilter := filter_discardFrom produced 0 j
  rw [Nat.zero_add] at hfilter
  rw [hfilter]
  have hlength : before.length = produced.length := by
    simpa using congrArg List.length hproduced
  by_cases hj : j ≤ before.length
  · have hreaches : Reaches (before ++ given :: after) before.length j ↔
        ∀ p ∈ produced.take j, p.discardFailure? = none := by
      rw [Reaches, List.take_append_of_le_length hj, forall_take_discardFailure? hproduced]
      simp [hj]
    have hown : (produced[j]?).elim [] (Produced.discardEvents j) =
        ((before ++ given :: after)[j]?).elim [] (Given.discardEvents j) := by
      rcases Nat.lt_or_eq_of_le hj with hlt | rfl
      · rw [List.getElem?_append_left hlt, ← bind_getElem?_of_map_eq hproduced j]
        cases before[j]? <;> rfl
      · rw [hlength, List.getElem?_eq_none (Nat.le_refl _), ← hlength]
        simp [hraises, Given.discardEvents, Given.produced?]
    simp only [hreaches, hown]
  · have hnone : produced[j]? = none := List.getElem?_eq_none (by omega)
    have hreaches : ¬ Reaches (before ++ given :: after) before.length j := fun h => hj h.1
    simp [hnone, hreaches]

/-! ### What stops one after another -/

namespace Given

theorem exists_value_of_failureInTurn? {given : Given} (h : given.failureInTurn? = none) :
    ∃ value, given.produced? = some (.value value) := by
  obtain ⟨hraised, hawaitable⟩ := Option.or_eq_none_iff.mp h
  obtain ⟨p, hp⟩ := exists_produced_of_raised? hraised
  cases p with
  | value value => exact ⟨value, hp⟩
  | awaitable a => simp [isAwaitable, hp, Produced.isAwaitable] at hawaitable

/-- A module stops production that is made in turn because its producer raises, or because it has
to be awaited. -/
theorem failureInTurn?_cases {given : Given} {failure : Failure}
    (h : given.failureInTurn? = some failure) :
    given = .producer (.error failure) ∨
      failure = .notSynchronous ∧ ∃ a, given.produced? = some (.awaitable a) := by
  cases hraised : given.raised? with
  | some own =>
    rw [failureInTurn?, hraised, Option.some_or] at h
    exact .inl (raised?_eq_some_iff.mp (hraised.trans h))
  | none =>
    obtain ⟨p, hp⟩ := exists_produced_of_raised? hraised
    rw [failureInTurn?, hraised, Option.none_or, isAwaitable, hp] at h
    cases p with
    | value value => cases h
    | awaitable a => exact .inr ⟨(Option.some.inj h).symm, a, hp⟩

end Given

theorem produceInTurn_of_stops {before : List Given} {given : Given} {failure : Failure}
    (hfirst : ∀ g ∈ before, g.failureInTurn? = none) (hgiven : given.failureInTurn? = some failure)
    (after : List Given) (index : Nat) :
    produceInTurn index (before ++ given :: after) =
      ⟨((before ++ [given]).findIdxs Given.isProducer index).map Event.called ++
        given.discardEvents (index + before.length),
        .error (given.discardFailure?.getD failure), []⟩ := by
  induction before generalizing index with
  | nil =>
    obtain rfl | ⟨rfl, a, ha⟩ := Given.failureInTurn?_cases hgiven
    · rfl
    · simp only [List.nil_append, produceInTurn, Given.produce_of_produced? ha,
        Given.discardEvents, Given.discardFailure?, ha, List.findIdxs_singleton]
      cases given.isProducer <;> rfl
  | cons g rest ih =>
    obtain ⟨value, hvalue⟩ :=
      Given.exists_value_of_failureInTurn? (hfirst g (List.mem_cons_self ..))
    have hrest := ih (fun x hx => hfirst x (List.mem_cons_of_mem g hx)) (index + 1)
    have hlength : index + 1 + rest.length = index + (g :: rest).length := by
      rw [List.length_cons]
      omega
    simp only [List.cons_append, produceInTurn, Given.produce_of_produced? hvalue, hrest, hlength,
      List.findIdxs_cons]
    cases g.isProducer <;> rfl

/-- What does not stop production in turn has no close function. -/
theorem StopsAt.discardFailure?_before {modules : List Given} {i : Nat} {failure : Failure}
    (h : StopsAt Given.failureInTurn? modules i failure) :
    ∀ given ∈ modules.take i, given.discardFailure? = none := by
  intro given hgiven
  obtain ⟨value, hvalue⟩ := Given.exists_value_of_failureInTurn? (h.first given hgiven)
  rw [Given.discardFailure?, hvalue]
  rfl

theorem StopsAt.endingFailure_inTurn {modules : List Given} {i : Nat} {failure : Failure}
    (h : StopsAt Given.failureInTurn? modules i failure) :
    endingFailure modules i failure =
      ((modules[i]?).bind Given.discardFailure?).getD failure := by
  have hbefore := List.findSome?_eq_none_iff.mpr h.discardFailure?_before
  rw [endingFailure, List.take_add_one, List.findSome?_append, hbefore, Option.none_or]
  cases modules[i]? with
  | none => rfl
  | some given => cases hown : given.discardFailure? <;> simp [hown]

/-- The same for modules that are produced one after another. -/
theorem stopped_of_failsInTurn {modules : List Given} {i : Nat} {failure : Failure}
    (h : StopsAt Given.failureInTurn? modules i failure) :
    Stopped modules i failure (produceInTurn 0 modules) := by
  have hvalues := h.discardFailure?_before
  have hending := h.endingFailure_inTurn
  obtain ⟨before, given, after, rfl, rfl, htake, hgiven, hfirst⟩ := h.exists_split
  have hending : given.discardFailure?.getD failure =
      endingFailure (before ++ given :: after) before.length failure := by
    rw [hending, List.getElem?_append_right (Nat.le_refl _), Nat.sub_self]
    rfl
  have hturn := produceInTurn_of_stops hfirst hgiven after 0
  rw [Nat.zero_add, hending] at hturn
  rw [hturn]
  refine ⟨rfl, rfl, _, by rw [htake], fun j => ?_⟩
  have hown : ∀ e ∈ given.discardEvents before.length, e.index = before.length :=
    fun e he => (Given.of_mem_discardEvents he).2
  rw [Event.filter_index_eq hown]
  rcases Nat.lt_trichotomy j before.length with hj | rfl | hj
  · obtain ⟨value, hvalue⟩ :=
      Given.exists_value_of_failureInTurn? (hfirst before[j] (List.getElem_mem hj))
    have hne : before.length ≠ j := by omega
    rw [if_neg hne, List.getElem?_append_left hj, List.getElem?_eq_getElem hj]
    simp [Given.discardEvents, hvalue, Produced.discardEvents]
  · have hreaches : Reaches (before ++ given :: after) before.length before.length :=
      ⟨Nat.le_refl _, hvalues⟩
    simp [hreaches]
  · have hne : before.length ≠ j := by omega
    have hreaches : ¬ Reaches (before ++ given :: after) before.length j := by
      intro h
      have hle := h.1
      omega
    rw [if_neg hne, if_neg hreaches]

namespace Stopped

variable {modules : List Given} {i : Nat} {failure : Failure} {p : Production}

theorem count_discarded (h : Stopped modules i failure p) (j : Nat) (how : Discarding) :
    p.events.count (.discarded j how) =
      if Reaches modules i j ∧ (modules[j]?).bind Given.discarding? = some how then 1 else 0 := by
  obtain ⟨discards, hevents, hdiscards⟩ := h.events
  have hcalls : (((modules.take (i + 1)).findIdxs Given.isProducer).map Event.called).count
      (.discarded j how) = 0 := by
    refine List.count_eq_zero.mpr fun hm => ?_
    obtain ⟨index, -, hindex⟩ := List.mem_map.mp hm
    cases hindex
  have hfiltered : discards.count (.discarded j how) =
      (discards.filter (·.index = j)).count (.discarded j how) :=
    (List.count_filter (by simp [Event.index])).symm
  rw [hevents, List.count_append, hcalls, Nat.zero_add, hfiltered, hdiscards]
  by_cases hreaches : Reaches modules i j
  · cases modules[j]? with
    | none => simp
    | some given => simpa [hreaches] using given.count_discardEvents j how
  · simp [hreaches]

theorem discarded_mem_iff (h : Stopped modules i failure p) {j : Nat} {how : Discarding} :
    .discarded j how ∈ p.events ↔
      Reaches modules i j ∧ (modules[j]?).bind Given.discarding? = some how := by
  rw [← List.count_pos_iff, h.count_discarded]
  split <;> simp_all

theorem settle_eq (h : Stopped modules i failure p) (callback : Option Callback) :
    p.settle callback =
      ⟨settle (.error (endingFailure modules i failure)) callback, [], p⟩ := by
  have hbuild : p.build.outcome = (.error (endingFailure modules i failure), []) := by
    rw [Work.outcome_eq, Production.build, Work.endFrom_bind, Work.endFrom_ofExcept, h.result]
    rfl
  rw [Production.settle, hbuild]

end Stopped

theorem StopsAt.endingFailure_eq {modules : List Given} {i : Nat} {failure : Failure}
    (h : StopsAt Given.raised? modules i failure) :
    endingFailure modules i failure =
      ((modules.take i).findSome? Given.discardFailure?).getD failure := by
  obtain ⟨before, given, after, rfl, rfl, htake, hgiven, -⟩ := h.exists_split
  obtain rfl := Given.raised?_eq_some_iff.mp hgiven
  rw [endingFailure, htake, List.findSome?_append, List.take_left]
  cases before.findSome? Given.discardFailure? <;> rfl

/-- Whatever was given as an awaitable has been discarded, if there is a way to do so. -/
def DiscardsGiven (modules : List Given) (p : Production) : Prop :=
  ∀ j a how, modules[j]? = some (.eager (.awaitable a)) → a.discarding? = some how →
    .discarded j how ∈ p.events

theorem Stopped.discardsGiven_iff {modules : List Given} {i : Nat} {failure : Failure}
    {p : Production} (h : Stopped modules i failure p) :
    DiscardsGiven modules p ↔
      ∀ j a, modules[j]? = some (.eager (.awaitable a)) → a.discarding? ≠ none →
        Reaches modules i j := by
  constructor
  · intro hall j a hj hne
    obtain ⟨how, hhow⟩ := Option.ne_none_iff_exists'.mp hne
    exact (h.discarded_mem_iff.mp (hall j a how hj hhow)).1
  · intro hreaches j a how hj hhow
    refine h.discarded_mem_iff.mpr ⟨hreaches j a hj (by simp [hhow]), ?_⟩
    rw [hj]
    exact hhow

/-- Where no close function raises before, discarding gets to all that does not stand behind. -/
theorem reaches_given_iff {modules : List Given} {i : Nat}
    (h : ∀ given ∈ modules.take i, given.discardFailure? = none) :
    (∀ j a, modules[j]? = some (.eager (.awaitable a)) → a.discarding? ≠ none →
      Reaches modules i j) ↔
      ∀ a, .eager (.awaitable a) ∈ modules.drop (i + 1) → a.discarding? = none := by
  constructor
  · intro hreaches a ha
    obtain ⟨k, hk⟩ := List.mem_iff_getElem?.mp ha
    rw [List.getElem?_drop] at hk
    by_contra hne
    have hle := (hreaches _ a hk hne).1
    omega
  · intro hlater j a hj hne
    by_cases hle : j ≤ i
    · refine ⟨hle, fun given hgiven => h given ?_⟩
      exact (List.take_subset_take_left modules hle) hgiven
    · have hm : .eager (.awaitable a) ∈ modules.drop (i + 1) := by
        refine List.mem_iff_getElem?.mpr ⟨j - (i + 1), ?_⟩
        have hindex : i + 1 + (j - (i + 1)) = j := by omega
        rw [List.getElem?_drop, hindex, hj]
      exact absurd (hlater a hm) hne

/-- When production stops early, then what was given as an awaitable is left neither awaited nor
discarded if and only if it can be discarded and was given after the module that stops production,
or after something whose close function raises when it is discarded. -/
theorem awaitablesGiven_discarded_iff {modules : List Given} {i : Nat} {failure : Failure} :
    (StopsAt Given.raised? modules i failure → failure.isError = true →
      ∀ closing schedule callback,
        let run := executableSchemaClosing closing schedule modules callback
        run.settled =
          settle (.error (((modules.take i).findSome? Given.discardFailure?).getD failure))
            callback ∧
        (DiscardsGiven modules run.production ↔
          ∀ j a, modules[j]? = some (.eager (.awaitable a)) → a.discarding? ≠ none →
            Reaches modules i j)) ∧
    (StopsAt Given.failureInTurn? modules i failure →
      let run := executableSchemaInTurn modules
      run.settled =
        ⟨.error (((modules[i]?).bind Given.discardFailure?).getD failure), []⟩ ∧
      (DiscardsGiven modules run.production ↔
        ∀ a, .eager (.awaitable a) ∈ modules.drop (i + 1) → a.discarding? = none)) := by
  constructor
  · intro h herror closing schedule callback run
    have hstopped := stopped_of_raises h herror closing schedule
    have hrun : run = ⟨settle (.error (endingFailure modules i failure)) callback, [],
        produceClosing closing schedule modules⟩ := hstopped.settle_eq callback
    rw [hrun]
    exact ⟨by rw [h.endingFailure_eq], hstopped.discardsGiven_iff⟩
  · intro h run
    have hstopped := stopped_of_failsInTurn h
    have hrun : run = ⟨settle (.error (endingFailure modules i failure)) none, [],
        produceInTurn 0 modules⟩ := hstopped.settle_eq none
    rw [hrun, h.endingFailure_inTurn]
    refine ⟨settle_none (.error _), ?_⟩
    rw [hstopped.discardsGiven_iff]
    exact reaches_given_iff h.discardFailure?_before

/-- After a producer that raises, and after a module that has to be awaited, only something without
a close function was given. -/
theorem awaitablesGiven_discarded_plainAfter :
    let value : ModuleValue := .pair ⟨[]⟩ .null
    let failure : Failure := .raised .runtime "Oops"
    let task (form : TaskForm) : Produced := .awaitable (.task form 0 (.ok value))
    let raising : List Given :=
      [.eager (.awaitable (.future none)), .eager (task (.closable none)),
        .producer (.error failure), .eager (task .plain)]
    let awaited : List Given :=
      [.eager (.value value), .eager (task (.closable none)), .eager (task .plain)]
    (StopsAt Given.raised? raising 2 failure ∧ failure.isError = true ∧
      StopsAt Given.failureInTurn? awaited 1 .notSynchronous) ∧
    DiscardsGiven raising
      (executableSchemaClosing moduleOrder fairSchedule raising none).production ∧
    DiscardsGiven awaited (executableSchemaInTurn awaited).production := by
  intro value failure task raising awaited
  have hraises : StopsAt Given.raised? raising 2 failure := ⟨rfl, by simp [raising, Given.raised?]⟩
  have hawaited : StopsAt Given.failureInTurn? awaited 1 .notSynchronous :=
    ⟨rfl, by simp [awaited, Given.failureInTurn?, Given.raised?, Given.isAwaitable,
      Given.produced?, Produced.isAwaitable]⟩
  have htogether := awaitablesGiven_discarded_iff.1 hraises rfl moduleOrder fairSchedule none
  have hinturn := awaitablesGiven_discarded_iff.2 hawaited
  have hcalm : ∀ given ∈ raising.take 2, given.discardFailure? = none := by
    simp [raising, task, Given.discardFailure?, Given.produced?, Produced.discardFailure?,
      Awaitable.discardFailure?]
  have hreaches := (reaches_given_iff hcalm).mpr fun a ha => by
    obtain rfl : a = .task .plain 0 (.ok value) := by simpa [raising, task] using ha
    rfl
  refine ⟨⟨hraises, rfl, hawaited⟩, htogether.2.mpr hreaches, hinturn.2.mpr fun a ha => ?_⟩
  · obtain rfl : a = .task .plain 0 (.ok value) := by simpa [awaited, task] using ha
    rfl

/-- What is given after a producer that raises stays as it is, although it could be closed. -/
theorem closableGiven_leftAfterFailure :
    let value : ModuleValue := .pair ⟨[]⟩ .null
    let failure : Failure := .raised .runtime "Oops"
    let modules : List Given :=
      [.producer (.error failure), .eager (.awaitable (.task (.closable none) 0 (.ok value)))]
    (StopsAt Given.raised? modules 0 failure ∧ failure.isError = true) ∧
    ¬ DiscardsGiven modules
      (executableSchemaTogether fairSchedule modules none).production ∧
    ¬ DiscardsGiven modules (executableSchemaInTurn modules).production := by
  intro value failure modules
  refine ⟨⟨⟨rfl, by simp⟩, rfl⟩, fun h => ?_, fun h => ?_⟩
  · have hm := h 1 _ .closed rfl rfl
    cases List.mem_singleton.mp hm
  · have hm := h 1 _ .closed rfl rfl
    cases List.mem_singleton.mp hm

end SchemaLoom
