import SchemaLoom.Callback
import SchemaLoom.Module

/-! Producing modules, some of which have to be called or awaited. What is awaited makes progress in
turns, and the order of the turns is given as data. -/

namespace SchemaLoom

inductive TaskForm where
  | coroutine
  | plain
  /-- Something with a close function of its own, which may raise. -/
  | closable (raises : Option Failure)

/-- Something to be awaited: a future that is done or is never done, a promise, which is a future
that somebody gets done later, or a task that gives way a number of times before it ends. -/
inductive Awaitable where
  | future (result : Option (Except Failure ModuleValue))
  | promise (result : Except Failure ModuleValue)
  | task (form : TaskForm) (turns : Nat) (result : Except Failure ModuleValue)

/-- A module, or something that has to be awaited to get it. -/
inductive Produced where
  | value (value : ModuleValue)
  | awaitable (awaitable : Awaitable)

/-- A module as it is given: as it is, or by a producer that has to be called. -/
inductive Given where
  | eager (produced : Produced)
  | producer (result : Except Failure Produced)

/-- What is done to something that will not be awaited. -/
inductive Discarding where
  | closed
  | cancelled
deriving DecidableEq, Repr

/-- What happens to the module with an index. What is discarded is told to close or to be cancelled;
whether anything comes of that can only be seen of some. -/
inductive Event where
  | called (index : Nat)
  | started (index : Nat)
  | ended (index : Nat)
  | discarded (index : Nat) (how : Discarding)
  | closed (index : Nat)
  | stopped (index : Nat)
  | futureCancelled (index : Nat)
deriving DecidableEq, Repr

def Event.index : Event → Nat
  | .called index => index
  | .started index => index
  | .ended index => index
  | .discarded index _ => index
  | .closed index => index
  | .stopped index => index
  | .futureCancelled index => index

namespace Awaitable

/-- How something is discarded: futures are cancelled, and what has a close function is closed. -/
def discarding? : Awaitable → Option Discarding
  | .future _ => some .cancelled
  | .promise _ => some .cancelled
  | .task .plain _ _ => none
  | .task _ _ _ => some .closed

/-- What comes of it: the close function of a caller runs, and a future that is not done is
cancelled. -/
def discardEffect (index : Nat) : Awaitable → List Event
  | .task (.closable _) _ _ => [.closed index]
  | .future none => [.futureCancelled index]
  | .promise _ => [.futureCancelled index]
  | _ => []

/-- What the close function of a caller raises. -/
def discardFailure? : Awaitable → Option Failure
  | .task (.closable raises) _ _ => raises
  | _ => none

end Awaitable

namespace Produced

def isAwaitable : Produced → Bool
  | .awaitable _ => true
  | .value _ => false

/-- The value that is there, without anything being awaited. -/
def toValue : Produced → Except Failure ModuleValue
  | .value v => .ok v
  | .awaitable _ => .error .unfinished

/-- The discarding of something produced. Values are left alone. -/
def discardEvents (index : Nat) : Produced → List Event
  | .value _ => []
  | .awaitable a => a.discarding?.toList.map (.discarded index) ++ a.discardEffect index

def discardFailure? : Produced → Option Failure
  | .value _ => none
  | .awaitable a => a.discardFailure?

end Produced

/-- Produce one module. Only producers are seen to be called. -/
def Given.produce (index : Nat) : Given → List Event × Except Failure Produced
  | .eager produced => ([], .ok produced)
  | .producer result => ([.called index], result)

/-- What came of producing modules in order, up to the first producer that raises. -/
structure Calls where
  events : List Event
  produced : List Produced
  failure : Option Failure

def produceFrom (index : Nat) : List Given → Calls
  | [] => ⟨[], [], none⟩
  | given :: rest =>
    let (events, result) := given.produce index
    match result with
    | .error failure => ⟨events, [], some failure⟩
    | .ok produced =>
      let calls := produceFrom (index + 1) rest
      ⟨events ++ calls.events, produced :: calls.produced, calls.failure⟩

/-- How far the work on one module has come. A future that is waited for has its result coming or
stays as it is. A task that was told to stop stops at its next turn. -/
inductive Progress where
  | ready (turns : Nat) (result : Except Failure ModuleValue)
  | running (turns : Nat) (result : Except Failure ModuleValue)
  | waiting (result : Option (Except Failure ModuleValue))
  | stopping (begun : Bool)
  | finished (result : Except Failure ModuleValue)
  | cancelled

namespace Progress

def initial : Awaitable → Progress
  | .future none => .waiting none
  | .future (some result) => .finished result
  | .promise result => .waiting (some result)
  | .task _ turns result => .ready turns result

def isTask : Progress → Bool
  | .ready _ _ => true
  | .running _ _ => true
  | .stopping _ => true
  | _ => false

def isPending : Progress → Bool
  | .ready _ _ => true
  | .running _ _ => true
  | .waiting _ => true
  | .stopping _ => true
  | _ => false

def result : Progress → Except Failure ModuleValue
  | .finished result => result
  | _ => .error .unfinished

def failure? : Progress → Option Failure
  | .finished (.error failure) => some failure
  | _ => none

/-- One turn of a task or a promise. A task that was not begun begins; one that has no turn left
ends, and so does one that was told to stop. Nothing is seen of a task that stops without having
begun. -/
def turn (index : Nat) : Progress → List Event × Progress
  | .ready 0 result => ([.started index, .ended index], .finished result)
  | .ready (n + 1) result => ([.started index], .running n result)
  | .running 0 result => ([.ended index], .finished result)
  | .running (n + 1) result => ([], .running n result)
  | .waiting (some result) => ([], .finished result)
  | .stopping begun => (if begun then [.stopped index] else [], .cancelled)
  | progress => ([], progress)

/-- Cancelling reaches what is pending. A future is cancelled at once, a task is told to stop. -/
def cancel (index : Nat) : Progress → List Event × Progress
  | .ready _ _ => ([], .stopping false)
  | .running _ _ => ([], .stopping true)
  | .waiting _ => ([.futureCancelled index], .cancelled)
  | progress => ([], progress)

/-- What can be seen of work that nobody waits for any more: a task does not go on. -/
def abandon (index : Nat) : Progress → List Event
  | .running _ _ => [.stopped index]
  | _ => []

end Progress

/-- What is awaited among the things produced, by their indices, the first of which is given. -/
def futuresFrom (index : Nat) : List Produced → List (Nat × Progress)
  | [] => []
  | .value _ :: rest => futuresFrom (index + 1) rest
  | .awaitable a :: rest => (index, Progress.initial a) :: futuresFrom (index + 1) rest

/-- Put the results of futures in the places of their indices. -/
def putResults (produced : List Produced) : List (Nat × Progress) → Except Failure (List Produced)
  | [] => .ok produced
  | (index, progress) :: rest => do
    let value ← progress.result
    putResults (produced.set index (.value value)) rest

/-- Modules that are awaited together: the first failure decides about all. -/
structure Batch where
  events : List Event
  futures : List (Nat × Progress)
  failure : Option Failure
  interrupted : Bool

namespace Batch

/-- A future that has failed already is the first failure of all. -/
def start (produced : List Produced) : Batch :=
  let futures := futuresFrom 0 produced
  ⟨[], futures, futures.findSome? fun (_, progress) => progress.failure?, false⟩

/-- Note a failure, which counts if it is the first. The interruption of a task comes before
failures that were met earlier. -/
def fail (task : Bool) (b : Batch) (failure : Failure) : Batch :=
  if task && failure.isInterruption then { b with failure := some failure, interrupted := true }
  else { b with failure := b.failure.or (some failure) }

def replace (b : Batch) (index : Nat) (next : Progress) : Batch :=
  { b with futures := b.futures.map fun (i, progress) => (i, if i = index then next else progress) }

/-- Give one task or promise a turn, if it is pending, and take no notice of failures. -/
def proceed (b : Batch) (index : Nat) : Batch :=
  match (b.futures.lookup index).filter Progress.isPending with
  | none => b
  | some progress =>
    let (events, next) := progress.turn index
    { b.replace index next with events := b.events ++ events }

def proceedAll (b : Batch) (schedule : List Nat) : Batch := schedule.foldl proceed b

/-- Give one task or promise a turn, if it is pending. After an interruption none gets another. -/
def resume (b : Batch) (index : Nat) : Batch :=
  if b.interrupted then b
  else
    match (b.futures.lookup index).filter Progress.isPending with
    | none => b
    | some progress =>
      (progress.turn index).2.failure?.elim (b.proceed index)
        ((b.proceed index).fail progress.isTask)

def resumeAll (b : Batch) (schedule : List Nat) : Batch := schedule.foldl resume b

def cancelAll (b : Batch) : Batch :=
  { b with
    events := b.events ++ b.futures.flatMap fun (index, progress) => (progress.cancel index).1
    futures := b.futures.map fun (index, progress) => (index, (progress.cancel index).2) }

/-- Whether what is still pending is cancelled: an error makes it so, and so does an interruption.
-/
def isCancelling (b : Batch) : Bool :=
  b.failure.any fun failure => failure.isError || b.interrupted

/-- Cancel what is still pending, if there is a reason. Tasks that are told to stop are waited for:
they have their last turns in the given order. -/
def finish (closing : List Nat) (b : Batch) : Batch :=
  if b.isCancelling then b.cancelAll.proceedAll closing else b

/-- The values, or the first failure. It is not raised before all that was cancelled has ended. -/
def results (produced : List Produced) (b : Batch) : Except Failure (List ModuleValue) :=
  match b.failure with
  | some failure =>
    if b.isCancelling && b.futures.any (fun (_, progress) => progress.isPending) then
      .error .unfinished
    else .error failure
  | none => do (← putResults produced b.futures).mapM Produced.toValue

end Batch

/-- The round in which a task or a future would make production fail. -/
def failingRound? : Produced → Option Nat
  | .awaitable (.future (some (.error _))) => some 1
  | .awaitable (.promise (.error _)) => some 1
  | .awaitable (.task _ turns (.error _)) => some (turns + 1)
  | _ => none

/-- The number of turns until something produced has come to its end. -/
def lastRound : Produced → Nat
  | .awaitable (.task _ turns _) => turns + 1
  | .awaitable (.promise _) => 1
  | _ => 0

/-- The number of rounds until the batch ends: the first round in which something fails, or the last
round of any task. -/
def roundCount (produced : List Produced) : Nat :=
  match (produced.filterMap failingRound?).min? with
  | some n => n
  | none => (produced.map lastRound).max?.getD 0

/-- The tasks that get a turn in a round, in the order of the modules. -/
def tasksInRound (produced : List Produced) (round : Nat) : List Nat :=
  (List.range produced.length).filter fun i =>
    (produced[i]?).any fun p => round ≤ lastRound p

/-- All tasks get their turns in rounds, until a failure is noticed at the end of a round. -/
def fairSchedule (produced : List Produced) : List Nat :=
  (List.range (roundCount produced)).flatMap fun i => tasksInRound produced (i + 1)

/-- What came of production: the events, the values or the failure, and how far the work that was
awaited has come. -/
structure Production where
  events : List Event
  result : Except Failure (List ModuleValue)
  futures : List (Nat × Progress)

/-- The discarding of what was produced, the first of it having the given index. A close function
that raises puts an end to it. -/
def discardFrom (index : Nat) : List Produced → List Event × Option Failure
  | [] => ([], none)
  | produced :: rest =>
    match produced.discardFailure? with
    | some failure => (produced.discardEvents index, some failure)
    | none =>
      let (events, failure) := discardFrom (index + 1) rest
      (produced.discardEvents index ++ events, failure)

def moduleOrder (produced : List Produced) : List Nat := List.range produced.length

/-- Produce modules at the same time. If a producer raises an error, what was produced before is
discarded and nothing begins; what is raised by that takes the place of the error. The schedule says
in which order the tasks get their turns until a failure is noticed, and `closing` in which order
they get those in which they stop. -/
def produceClosing (closing schedule : List Produced → List Nat) (modules : List Given) :
    Production :=
  let calls := produceFrom 0 modules
  match calls.failure with
  | some failure =>
    let (discarded, raised?) := if failure.isError then discardFrom 0 calls.produced else ([], none)
    ⟨calls.events ++ discarded, .error (raised?.getD failure), []⟩
  | none =>
    let batch := ((Batch.start calls.produced).resumeAll (schedule calls.produced)).finish
      (closing calls.produced)
    ⟨calls.events ++ batch.events, batch.results calls.produced, batch.futures⟩

/-- Produce modules at the same time, with tasks that stop in the order of the modules. -/
def produceTogether (schedule : List Produced → List Nat) (modules : List Given) : Production :=
  produceClosing moduleOrder schedule modules

/-- Produce modules one after another, none of which may have to be awaited. -/
def produceInTurn (index : Nat) : List Given → Production
  | [] => ⟨[], .ok [], []⟩
  | given :: rest =>
    let (events, result) := given.produce index
    match result with
    | .error failure => ⟨events, .error failure, []⟩
    | .ok (.awaitable a) =>
      ⟨events ++ (Produced.awaitable a).discardEvents index,
        .error (a.discardFailure?.getD .notSynchronous), []⟩
    | .ok (.value value) =>
      let production := produceInTurn (index + 1) rest
      ⟨events ++ production.events, production.result.map (value :: ·), []⟩

/-- What can be seen after production has ended: tasks that were left running do not go on. -/
def Production.aftermath (p : Production) : List Event :=
  p.futures.flatMap fun (index, progress) => progress.abandon index

def Production.build (p : Production) : Work ExecutableSchema := do
  buildFromValues (← Work.ofExcept id p.result)

/-- A call that builds a schema from modules: how it ended and what its callback was told, its
records, and how the modules were produced. -/
structure SchemaRun where
  settled : Settled ExecutableSchema
  records : List LogRecord
  production : Production

def Production.settle (p : Production) (callback : Option Callback) : SchemaRun :=
  let (result, records) := p.build.outcome
  ⟨SchemaLoom.settle result callback, records, p⟩

def executableSchemaClosing (closing schedule : List Produced → List Nat) (modules : List Given)
    (callback : Option Callback) : SchemaRun :=
  (produceClosing closing schedule modules).settle callback

def executableSchemaTogether (schedule : List Produced → List Nat) (modules : List Given)
    (callback : Option Callback) : SchemaRun :=
  executableSchemaClosing moduleOrder schedule modules callback

def executableSchemaInTurn (modules : List Given) : SchemaRun :=
  (produceInTurn 0 modules).settle none

end SchemaLoom
