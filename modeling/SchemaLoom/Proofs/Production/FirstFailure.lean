import Mathlib
import SchemaLoom.Proofs.Production.Closing
import SchemaLoom.Proofs.Production.Failures

/-! Producing modules of which one fails. The first failure in time is the one that is raised, in
whatever order the turns come, and it is raised when all that is awaited has ended. -/

namespace SchemaLoom

variable {produced : List Produced} {order : List Nat} {index : Nat} {failure : Failure}

namespace Batch

variable {closing : List Nat}

end Batch

end SchemaLoom
