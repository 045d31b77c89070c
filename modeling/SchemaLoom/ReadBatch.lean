import SchemaLoom.Failure

/-! Reading files at the same time. What happens to the reads is given as data, in its order in
time. -/

namespace SchemaLoom

/-- Something that happens while files are read: the read of the path with an index ends, or the
call that waits for the reads is interrupted. -/
inductive ReadEvent where
  | ended (index : Nat)
  | interrupted (failure : Failure)

/-- Reads that are waited for together: the texts that have come, in the places of their paths, and
the failure that has decided about all. -/
structure ReadBatch where
  texts : List (Option String)
  failure : Option Failure

namespace ReadBatch

def start (paths : List String) : ReadBatch := ⟨paths.map fun _ => none, none⟩

def isOver (b : ReadBatch) : Bool := b.failure.isSome || b.texts.all Option.isSome

def fail (b : ReadBatch) (failure : Failure) : ReadBatch := { b with failure := some failure }

/-- A read that has ended gives its text, or it fails. -/
def take (b : ReadBatch) (index : Nat) : Except ReadFault String → ReadBatch
  | .ok text => { b with texts := b.texts.set index (some text) }
  | .error fault => b.fail (.read fault)

def meet (tree : FileTree) (paths : List String) (b : ReadBatch) : ReadEvent → ReadBatch
  | .interrupted failure => b.fail failure
  | .ended index =>
    match paths[index]? with
    | none => b
    | some path => b.take index (tree.read path.toList)

/-- Once all texts are there, or something has failed, nothing that happens counts any more. -/
def step (tree : FileTree) (paths : List String) (b : ReadBatch) (event : ReadEvent) : ReadBatch :=
  if b.isOver then b else b.meet tree paths event

def run (tree : FileTree) (paths : List String) (events : List ReadEvent) : ReadBatch :=
  events.foldl (step tree paths) (start paths)

/-- The texts in the order of their paths, or the failure. -/
def result (b : ReadBatch) : Except Failure (List String) :=
  match b.failure, b.texts.mapM id with
  | some failure, _ => .error failure
  | none, some texts => .ok texts
  | none, none => .error .unfinished

end ReadBatch

end SchemaLoom
