import SchemaLoom.Loader

/-! Modules: documents with the resolvers for their types, and the schemas that are built from
them. -/

namespace SchemaLoom

/-- A part of a schema: a document with the resolvers for its types. -/
structure Module where
  document : Document
  resolvers : Value

/-- What can be given as a module: a document, a module, a mapping that holds a document, or some
value that is no module. -/
inductive ModuleValue where
  | document (document : Document)
  | pair (document : Document) (resolvers : Value)
  | mapping (document : Document) (entries : List (String × Value))
  | other (value : Value)

def ModuleValue.toModule : ModuleValue → Except Failure Module
  | .document d => .ok ⟨d, .null⟩
  | .pair d resolvers => .ok ⟨d, resolvers⟩
  | .mapping d entries => .ok ⟨d, (Entries.get? "resolvers" entries).getD .null⟩
  | .other value => .error (.noModule value)

/-- A schema with what is bound to its slots. -/
structure ExecutableSchema where
  schema : Schema
  bindings : Bindings

/-- The entries of a module's resolver map. Empty values count as no map. -/
def Module.entries (m : Module) : Except Failure (List (String × Value)) :=
  if !m.resolvers.isTruthy then .ok []
  else
    match m.resolvers with
    | .mapping entries => .ok entries
    | value => .error (.noEntries value)

/-- The resolver maps of all modules in one. Later modules replace what earlier ones give. -/
def mergedResolvers (modules : List Module) : Except Failure (List (String × Value)) :=
  modules.foldlM (fun merged m => do return deepMerge merged (← m.entries)) []

/-- Bind a resolver map to a schema, with a record for each type that got all of its resolvers. -/
def addResolversWork (schema : Schema) (resolvers : List (String × Value)) (b : Bindings) :
    Work ExecutableSchema := do
  let plan := Resolver.plan schema resolvers
  for type in plan.reported do Work.record (.addedResolvers type)
  match plan.fault with
  | some fault => throw (.resolver fault)
  | none => return ⟨schema, addResolvers schema resolvers b⟩

/-- Build a schema from the documents of modules, and bind their merged resolvers to it. -/
def buildFromModules (modules : List Module) : Work ExecutableSchema := do
  let schema ← combineDocuments (modules.map Module.document) false
  let resolvers ← Work.ofExcept id (mergedResolvers modules)
  Work.record (.builtModules modules.length resolvers.length)
  addResolversWork schema resolvers Bindings.initial

def buildFromValues (values : List ModuleValue) : Work ExecutableSchema := do
  let modules ← Work.ofExcept id (values.mapM ModuleValue.toModule)
  buildFromModules modules

end SchemaLoom
