import Typesetter.Settings.InactiveMode

namespace Typesetter

structure Settings where
  strict : Bool := false
  maxRecursionDepth : Nat := 64
  maxIterations : Nat := 10000
  maxViewDepth : Nat := 16
  inactiveMode : InactiveMode := default
  deriving DecidableEq, Repr, Inhabited

end Typesetter
