import Cs111Labs.Foundation.Run
import Cs111Labs.Schedos.Shares

/-!
# The system calls of SchedOS

`interrupt()` with the calls that the scheduling algorithms depend on.  Each of
them works on the current process and either goes on with it or ends in
`schedule()`.
-/

namespace Cs111Labs.Schedos

/-- The processes with the fields that `Process` leaves out. -/
structure Machine extends Kernel where
  priority : Nat → Int
  exitStatus : Nat → BitVec 32

/-- The system calls, with `%eax`. -/
inductive Call where
  | yield
  | exit (eax : BitVec 32)
  | priority (eax : BitVec 32)
  | share (eax : BitVec 32)
  deriving DecidableEq, Repr

namespace Call

/-- The call ends in `schedule()`. -/
def Schedules : Call → Prop
  | .yield | .exit _ => True
  | .priority _ | .share _ => False

instance : DecidablePred Schedules
  | .yield | .exit _ => .isTrue trivial
  | .priority _ | .share _ => .isFalse id

/-- What the call does before that. -/
def enter : Call → Machine → Machine
  | .yield, m => m
  | .exit eax, m =>
      { m with
        procArray := Function.update m.procArray m.current
          { m.procArray m.current with state := .zombie }
        exitStatus := Function.update m.exitStatus m.current eax }
  | .priority eax, m =>
      { m with priority := Function.update m.priority m.current eax.toInt }
  | .share eax, m =>
      { m with
        procArray := Function.update m.procArray m.current
          { m.procArray m.current with share := eax.toInt } }

end Call

/-- `interrupt`, for one of the algorithms of `schedule`. -/
def interrupt (schedule : Machine → Option Machine) (call : Call) (m : Machine) :
    Option Machine :=
  if call.Schedules then schedule (call.enter m) else some (call.enter m)

/-- `start`, where `PRIORITY_i` is `i`. -/
def startMachine : Machine where
  toKernel := started
  priority i := i
  exitStatus _ := 0

end Cs111Labs.Schedos
