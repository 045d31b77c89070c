import SchemaLoom.Callback
import SchemaLoom.Document.Parser
import SchemaLoom.ReadBatch

/-! Loading documents and schemas from the files that match a pattern. -/

namespace SchemaLoom

/-- The order of texts by their characters. -/
def textLE (a b : String) : Bool := (compareRuns a.toList b.toList).isLE

/-- The paths that match a pattern. Relative patterns are matched against a directory if one is
given, and the paths are joined onto it. -/
def pathsMatching (tree : FileTree) (pattern : Path) (cwd : Option Path) (options : GlobOptions) :
    Except GlobFault (List Path) :=
  match cwd with
  | none => Glob.glob tree options pattern
  | some directory => do
    if options.root.isSome then throw .rootTwice
    let found ← Glob.glob tree { options with root := some (some directory) } pattern
    return found.map (Path.join directory)

/-- The paths of all files that match a pattern, in the order of their characters. -/
def resolvePattern (tree : FileTree) (pattern : String) (cwd : Option String)
    (options : GlobOptions) : Work (List String) := do
  let found ← Work.ofExcept .glob
    (pathsMatching tree pattern.toList (cwd.map String.toList) options)
  if found.isEmpty then throw (.patternMatch pattern)
  let paths := (found.map String.ofList).mergeSort textLE
  Work.record (.matched pattern paths.length)
  return paths

def readFiles (tree : FileTree) (paths : List String) : Work (List String) :=
  Work.ofExcept .read (tree.readAll (paths.map String.toList))

/-- What happens while files are awaited: the call may be interrupted before their paths are known,
and what happens to their reads may depend on the paths. -/
structure Course where
  interruption : Option Failure
  reads : List String → List ReadEvent

namespace Course

/-- Nothing interrupts the call, and the reads end in an order that is given by the indices of the
paths. -/
def undisturbed (order : List String → List Nat) : Course :=
  ⟨none, fun paths => (order paths).map .ended⟩

end Course

/-- Paths that are searched for in the background are of no use after an interruption. -/
def resolvePatternAwaited (tree : FileTree) (course : Course) (pattern : String)
    (cwd : Option String) (options : GlobOptions) : Work (List String) :=
  match course.interruption with
  | some failure => throw failure
  | none => resolvePattern tree pattern cwd options

/-- The files are read at the same time. -/
def readFilesAwaited (tree : FileTree) (events : List ReadEvent) (paths : List String) :
    Work (List String) :=
  Work.ofExcept id (ReadBatch.run tree paths events).result

/-- The same, with reads that all end, in the given order. -/
def readFilesTogether (tree : FileTree) (order : List Nat) (paths : List String) :
    Work (List String) :=
  readFilesAwaited tree (order.map .ended) paths

def parseDocument (body : String) (located : Bool) : Work Document :=
  Work.ofExcept (.syntaxError · body) (Document.parse body located)

/-- Merge documents, and keep a record if that brought definitions together. -/
def mergeWork (documents : List Document) : Work Document := do
  if let some report := mergeReport? documents then Work.record (.merged report)
  return mergeDocuments documents

theorem endFrom_mergeWork (documents : List Document) (records : List LogRecord) :
    ∃ more, (mergeWork documents).endFrom records = (.ok (mergeDocuments documents), more) := by
  rw [mergeWork]
  cases mergeReport? documents with
  | none => exact ⟨records, rfl⟩
  | some report => exact ⟨records ++ [.merged report], rfl⟩

/-- Parse contents as one document, and merge what is in it. -/
def parseContents (contents : List String) (located : Bool) : Work Document := do
  mergeWork [← parseDocument (String.join contents) located]

def buildWork (document : Document) (assumeValid : Bool) : Work Schema :=
  Work.ofExcept .build (buildSchema document assumeValid)

def combineDocuments (documents : List Document) (assumeValid : Bool) : Work Schema := do
  let document ← mergeWork documents
  Work.record (.building documents.length)
  buildWork document assumeValid

theorem outcome_combineDocuments (documents : List Document) (assumeValid : Bool) :
    (combineDocuments documents assumeValid).outcome.1 =
      (buildSchema (mergeDocuments documents) assumeValid).mapError .build := by
  obtain ⟨more, hmerge⟩ := endFrom_mergeWork documents []
  rw [combineDocuments, Work.outcome_eq, Work.endFrom_bind, hmerge]
  simp only [Work.endFrom_bind, Work.endFrom_record, buildWork, Work.endFrom_ofExcept]

def loadDocument (tree : FileTree) (pattern : String) (cwd : Option String)
    (options : GlobOptions) (located : Bool) : Work Document := do
  let paths ← resolvePattern tree pattern cwd options
  parseContents (← readFiles tree paths) located

def loadSchema (tree : FileTree) (pattern : String) (cwd : Option String) (options : GlobOptions)
    (located assumeValid : Bool) : Work Schema := do
  buildWork (← loadDocument tree pattern cwd options located) assumeValid

/-- A call that loads something: how it ended and what its callback was told, and its records. -/
structure LoadRun (α : Type) where
  settled : Settled α
  records : List LogRecord

def Work.settle (work : Work α) (callback : Option Callback) : LoadRun α :=
  ⟨SchemaLoom.settle work.outcome.1 callback, work.outcome.2⟩

/-- Wait for another call to end. -/
def LoadRun.await (run : LoadRun α) : Work (Option α) := do
  for r in run.records do Work.record r
  Work.ofExcept id run.settled.result

theorem LoadRun.endFrom_await (run : LoadRun α) (records : List LogRecord) :
    run.await.endFrom records = (run.settled.result, records ++ run.records) := by
  have hrecords := Work.endFrom_forIn_record id run.records records
  simp only [id_eq, List.map_id] at hrecords
  rw [await, Work.endFrom_bind, hrecords]
  exact (Work.endFrom_ofExcept id run.settled.result _).trans (by cases run.settled.result <;> rfl)

theorem Work.settle_none (work : Work α) :
    work.settle none = ⟨⟨work.outcome.1.map some, []⟩, work.outcome.2⟩ := by
  rw [settle, SchemaLoom.settle_none]

/-- The work on a document whose files are read at the same time. -/
def loadDocumentAwaited (tree : FileTree) (course : Course) (pattern : String)
    (cwd : Option String) (options : GlobOptions) (located : Bool) : Work Document := do
  let paths ← resolvePatternAwaited tree course pattern cwd options
  parseContents (← readFilesAwaited tree (course.reads paths) paths) located

def loadDocumentRun (tree : FileTree) (course : Course) (pattern : String) (cwd : Option String)
    (options : GlobOptions) (located : Bool) (callback : Option Callback) : LoadRun Document :=
  (loadDocumentAwaited tree course pattern cwd options located).settle callback

/-- The work on a schema waits for the call that loads its document, which has no callback of its
own. -/
def loadSchemaAwaited (tree : FileTree) (course : Course) (pattern : String) (cwd : Option String)
    (options : GlobOptions) (located assumeValid : Bool) : Work Schema := do
  match ← (loadDocumentRun tree course pattern cwd options located none).await with
  | some document => buildWork document assumeValid
  | none => throw .noDocument

def loadSchemaRun (tree : FileTree) (course : Course) (pattern : String) (cwd : Option String)
    (options : GlobOptions) (located assumeValid : Bool) (callback : Option Callback) :
    LoadRun Schema :=
  (loadSchemaAwaited tree course pattern cwd options located assumeValid).settle callback

/-- The work on a document with reads that all end, in an order that may depend on the paths. -/
def loadDocumentTogether (tree : FileTree) (order : List String → List Nat) (pattern : String)
    (cwd : Option String) (options : GlobOptions) (located : Bool) : Work Document := do
  let paths ← resolvePattern tree pattern cwd options
  parseContents (← readFilesTogether tree (order paths) paths) located

def loadSchemaTogether (tree : FileTree) (order : List String → List Nat) (pattern : String)
    (cwd : Option String) (options : GlobOptions) (located assumeValid : Bool) : Work Schema := do
  buildWork (← loadDocumentTogether tree order pattern cwd options located) assumeValid

end SchemaLoom
