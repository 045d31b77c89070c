import SchemaLoom.Document.Token
import SchemaLoom.FileTree.Glob
import SchemaLoom.FileTree.Reading
import SchemaLoom.Resolver
import SchemaLoom.ScalarType
import SchemaLoom.Schema.Build
import SchemaLoom.Version

/-! All that can go wrong, and the records that are kept of what is done. -/

namespace SchemaLoom

/-- The classes of failures that callers can tell apart. -/
inductive FailureKind where
  | runtime
  | value
  | type
  | attribute
  | index
  | system
  | fileNotFound
  | isDirectory
  | notDirectory
  | decoding
  | recursion
  | loader
  | patternMatch
  | resolver
  | syntaxError
  | graphql
  | cancelled
  | interrupted
  | exiting
deriving DecidableEq, Repr

/-- Cancellation, interruption and exiting are no errors: nobody handles them on the way. -/
def FailureKind.isError : FailureKind → Bool
  | .cancelled => false
  | .interrupted => false
  | .exiting => false
  | _ => true

/-- Interruption and exiting end all work at once. -/
def FailureKind.isInterruption : FailureKind → Bool
  | .interrupted => true
  | .exiting => true
  | _ => false

/-- The failures that the library itself has to tell of. -/
inductive LoaderFault where
  | general (text : String)
  | patternMatch (pattern : String)
  | resolver (text : String)
deriving DecidableEq

def LoaderFault.message : LoaderFault → String
  | .general text => text
  | .patternMatch pattern => "The glob pattern \"" ++ pattern ++ "\" has zero matches"
  | .resolver text => text

inductive Failure where
  | syntaxError (error : SyntaxError) (body : String)
  | build (fault : BuildFault)
  | resolver (fault : ResolverFault)
  | scalar (fault : ScalarFault)
  /-- Entries are asked of a value that has none. -/
  | noEntries (value : Value)
  | patternMatch (pattern : String)
  | glob (fault : GlobFault)
  | read (fault : ReadFault)
  | merge (fault : MergeFault)
  /-- A schema is to be built from something that is no document. -/
  | noDocument
  | version (fault : VersionFault)
  | noModule (value : Value)
  | notSynchronous
  /-- What a caller's own function raises. -/
  | raised (kind : FailureKind) (text : String)
  /-- Some awaited work never ends. -/
  | unfinished

namespace BuildFault

/-- A fault met within a type keeps its kind only if it comes from an argument of a directive. -/
def failureKind : BuildFault → FailureKind
  | .enumExtendedAs _ => .attribute
  | .badArgument _ _ _ => .graphql
  | .within _ _ cause => if cause.failureKind = .graphql then .graphql else .type
  | _ => .type

end BuildFault

namespace Failure

def kind : Failure → FailureKind
  | .syntaxError _ _ => .syntaxError
  | .build fault => fault.failureKind
  | .resolver _ => .resolver
  | .scalar (.badName _) => .graphql
  | .scalar _ => .type
  | .noEntries _ => .attribute
  | .patternMatch _ => .patternMatch
  | .glob .rootTwice => .type
  | .glob .nullCharacter => .value
  | .read (.unreachable .notFound _) => .fileNotFound
  | .read (.unreachable .notDirectory _) => .notDirectory
  | .read (.unreachable .tooLong _) => .system
  | .read (.unreachable .tooManyLinks _) => .system
  | .read (.unreachable .nullCharacter _) => .value
  | .read (.isDirectory _) => .isDirectory
  | .read (.undecodable _) => .decoding
  | .merge .noDefinitions => .index
  | .merge (.lacksPart _ _) => .attribute
  | .noDocument => .type
  | .version _ => .value
  | .noModule _ => .type
  | .notSynchronous => .runtime
  | .raised kind _ => kind
  | .unfinished => .runtime

/-- Work that never ends gives nobody an error to handle. -/
def isError : Failure → Bool
  | .unfinished => false
  | failure => failure.kind.isError

def isInterruption (failure : Failure) : Bool := failure.kind.isInterruption

def message : Failure → String
  | .syntaxError e _ => e.fault.message
  | .build fault => fault.message
  | .resolver fault => fault.message
  | .scalar fault => fault.message
  | .noEntries value => "'" ++ value.kindName ++ "' object has no attribute 'items'"
  | .patternMatch pattern => (LoaderFault.patternMatch pattern).message
  | .glob fault => fault.message
  | .read fault => fault.message
  | .merge fault => fault.message
  | .noDocument => "Must provide valid Document AST."
  | .version fault => fault.message
  | .noModule value => "Expected a GraphQL module, but got " ++ value.display ++ "."
  | .notSynchronous => "GraphQL module failed to load synchronously."
  | .raised .patternMatch text => (LoaderFault.patternMatch text).message
  | .raised _ text => text
  | .unfinished => "The awaited work does not end."

/-- The pattern of a failure to match one. -/
def pattern? : Failure → Option String
  | .patternMatch pattern => some pattern
  | .raised .patternMatch text => some text
  | _ => none

/-- The lines and columns of what is wrong in a document. Failures that have nothing to do with
documents have none; a failure that has may yet not know its place. -/
def places? : Failure → Option (List (Nat × Nat))
  | .syntaxError e body => some [lineColumn body.toList e.position]
  | .build fault =>
    if fault.failureKind = .graphql then some (fault.location?.map Location.place).toList
    else none
  | failure => if failure.kind = .graphql then some [] else none

end Failure

/-- A record of something done. -/
inductive LogRecord where
  | merged (report : MergeReport)
  | matched (pattern : String) (count : Nat)
  | building (documents : Nat)
  | builtModules (modules types : Nat)
  | addedResolvers (type : Name)
deriving DecidableEq, Repr

def LogRecord.message : LogRecord → String
  | .merged report => report.message
  | .matched pattern count =>
    "Pattern " ++ quoted pattern ++ " matched " ++ toString count ++ " files."
  | .building documents => "Building schema from " ++ toString documents ++ " documents."
  | .builtModules modules types =>
    "Built schema from " ++ toString modules ++ " modules with resolvers for " ++ toString types
      ++ " types."
  | .addedResolvers type => "Added resolvers for type " ++ type ++ "."

/-- Work that may fail and that keeps records. The records stay if it fails. -/
abbrev Work := ExceptT Failure (StateM (List LogRecord))

namespace Work

def record (r : LogRecord) : Work Unit := modify (· ++ [r])

def ofExcept (failure : ε → Failure) : Except ε α → Work α
  | .ok a => return a
  | .error e => throw (failure e)

/-- The result of work, and the records in their order. -/
def outcome (work : Work α) : Except Failure α × List LogRecord :=
  let (result, records) := (ExceptT.run work).run []
  (result, records)

/-- How work ends that is begun with some records. -/
def endFrom (work : Work α) (records : List LogRecord) : Except Failure α × List LogRecord :=
  (ExceptT.run work).run records

theorem outcome_eq (work : Work α) : work.outcome = work.endFrom [] := rfl

theorem endFrom_bind (work : Work α) (next : α → Work β) (records : List LogRecord) :
    (work >>= next).endFrom records =
      match work.endFrom records with
      | (.ok a, more) => (next a).endFrom more
      | (.error failure, more) => (.error failure, more) := by
  change (ExceptT.bindCont next =<< ExceptT.run work).run records = _
  change ((ExceptT.bindCont next) ((ExceptT.run work).run records).1).run
    ((ExceptT.run work).run records).2 = _
  rw [endFrom]
  cases (ExceptT.run work).run records with
  | mk result more => cases result <;> rfl

theorem endFrom_pure (a : α) (records : List LogRecord) :
    (pure a : Work α).endFrom records = (.ok a, records) := rfl

theorem endFrom_throw (failure : Failure) (records : List LogRecord) :
    (throw failure : Work α).endFrom records = (.error failure, records) := rfl

theorem endFrom_record (r : LogRecord) (records : List LogRecord) :
    (record r).endFrom records = (.ok (), records ++ [r]) := rfl

theorem endFrom_ofExcept (failure : ε → Failure) (result : Except ε α) (records : List LogRecord) :
    (ofExcept failure result).endFrom records = (result.mapError failure, records) := by
  cases result <;> rfl

theorem endFrom_forIn_record (log : α → LogRecord) (items : List α) (records : List LogRecord) :
    (forIn items PUnit.unit fun item _ => do
        record (log item)
        pure (ForInStep.yield PUnit.unit) : Work PUnit).endFrom records =
      (.ok PUnit.unit, records ++ items.map log) := by
  induction items generalizing records with
  | nil => simp [endFrom_pure]
  | cons item rest ih =>
    rw [List.forIn_cons, endFrom_bind, endFrom_bind, endFrom_record]
    simp only [endFrom_pure]
    rw [ih]
    simp

end Work

end SchemaLoom
