import SchemaLoom.Failure

/-! Telling a callback how awaited work ended, with the error first. -/

namespace SchemaLoom

/-- What comes of calling a callback: a value, an error, or something that has to be awaited and
that ends some time. -/
inductive Reply where
  | value (value : Value)
  | error (failure : Failure)
  | awaitable (ending : Except Failure Value)

namespace Reply

/-- How the call ends when all that had to be awaited has been awaited. -/
def ending : Reply → Except Failure Value
  | .value v => .ok v
  | .error failure => .error failure
  | .awaitable ending => ending

def ofEnding : Except Failure Value → Reply
  | .ok v => .value v
  | .error failure => .error failure

instance : Coe (Except Failure Value) Reply := ⟨ofEnding⟩

end Reply

/-- A callback, known by what comes of calling it. -/
structure Callback where
  reply : Reply

/-- Work that may call a callback, with a list of what the callback was told. A callback is told of
a result or of an error. -/
abbrev Telling (α : Type) := ExceptT Failure (StateM (List (Except Failure α)))

/-- Call a callback, and await what it gives if that has to be awaited. -/
def Callback.tell (callback : Callback) (outcome : Except Failure α) : Telling α Unit := do
  modify (· ++ [outcome])
  match callback.reply with
  | .value _ => return
  | .error failure => throw failure
  | .awaitable (.ok _) => return
  | .awaitable (.error failure) => throw failure

/-- Tell of an error, after which there is no result. What is no error is not handled. -/
def Callback.handle (callback : Callback) (failure : Failure) : Telling α (Option α) := do
  unless failure.isError do throw failure
  callback.tell (.error failure)
  return none

/-- Wait for work and tell a callback how it ended. Failures of the callback itself are not handled,
whatever it was told. -/
def settling (outcome : Except Failure α) : Option Callback → Telling α (Option α)
  | none => do return some (← liftExcept outcome)
  | some callback => do
    let result? ← tryCatch (do return some (← liftExcept outcome)) callback.handle
    if let some result := result? then callback.tell (.ok result)
    return result?

/-- How a call ended, and what its callback was told. -/
structure Settled (α : Type) where
  result : Except Failure (Option α)
  calls : List (Except Failure α)

def settle (outcome : Except Failure α) (callback : Option Callback) : Settled α :=
  let (result, calls) := (settling outcome callback).run.run []
  ⟨result, calls⟩

theorem settle_none (outcome : Except Failure α) :
    settle outcome none = ⟨outcome.map some, []⟩ := by
  cases outcome <;> rfl

end SchemaLoom
