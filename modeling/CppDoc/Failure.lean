/-!
# Failures

What ends a run: a place on disk that is not there or cannot be read.
-/

namespace CppDoc

/-- Why a run cannot go on. -/
inductive Failure where
  | noRoot (path : String)
  | noListing (root : String)
  | unreadableSource (path : String)
  | unreadableHeader (path : String)
  deriving DecidableEq, Repr, Inhabited

/-- The wording of a failure. -/
def Failure.message : Failure → String
  | .noRoot path => "root directory not found: " ++ path
  | .noListing root => "failed to walk " ++ root
  | .unreadableSource path => "failed to read " ++ path
  | .unreadableHeader path => "failed to read header " ++ path

end CppDoc
