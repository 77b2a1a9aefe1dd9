import Shiba.Machine

/-!
# Evaluators

Expressions and statements are evaluated by functions that are not recursive themselves:
whatever lies inside a construct is evaluated by the `Evaluators` they are given.  The recursion
is tied in one place, so a property that every construct hands on from its parts holds of the
whole.
-/

namespace Shiba

/-- How a statement ended: by itself, with a value, or with a jump that unwinds what encloses it. -/
inductive Flow where
  | done
  | value (b : BoxId)
  | breakLoop
  | continueLoop
  | returnValue (b : Option BoxId)
deriving DecidableEq

namespace Flow

/-- The jump a statement ended with, if it did. -/
def jump? : Flow → Option Jump
  | .breakLoop => some .breakLoop
  | .continueLoop => some .continueLoop
  | .returnValue _ => some .returnValue
  | _ => none

end Flow

/-- Where something is evaluated: the module its names belong to, and how many more calls may be
nested inside. -/
structure Context where
  module : ModuleId
  calls : Nat

/-- The evaluators of what lies inside a construct. -/
structure Evaluators where
  expr : Context → Expr → Eval BoxId
  stmt : Context → Stmt → Eval Flow

namespace Eval

/-- Runs the statements of a block one after another up to the first jump. -/
def runBlock (run : Stmt → Eval Flow) : Block → Eval Flow
  | [] => return .done
  | s :: rest => do
    let flow ← run s
    if flow.jump?.isSome then return flow else runBlock run rest

end Eval

end Shiba
