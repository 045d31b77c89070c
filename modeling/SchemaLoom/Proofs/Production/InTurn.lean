import SchemaLoom.Proofs.Production.Discarding
import SchemaLoom.Proofs.Production.Schedule
import SchemaLoom.Proofs.Results

/-! Modules that are produced one after another. Production stops at the first producer that raises
and at the first module that has to be awaited, whichever comes first. Only if nothing stops it are
the values looked at, and then the first of them that is no module decides how the call ends. -/

namespace SchemaLoom

section Values

variable {modules : List Given} {values : List ModuleValue}

end Values

end SchemaLoom
