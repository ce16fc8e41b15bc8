import Rendition.Source.Error
import Rendition.Rendering.Rule

/-!
# Failures

What can go wrong between a source text and its rendition.

## Main definitions

* `Failure`: The causes.
* `Failure.message`: Their wording, which is that of the cause where it has one of its own.
-/

namespace Rendition

/-- What can go wrong between a source text and its rendition. -/
inductive Failure where
  | read (error : ReadError)
  | unimplemented (error : Unimplemented)
  | unknownBackend (name : String)
  deriving DecidableEq

namespace Failure

/-- The wording of the failure. -/
def message : Failure → String
  | read error => error.message
  | unimplemented error => error.message
  | unknownBackend name => "no backend named `" ++ name ++ "`"

end Failure

end Rendition
