import Cs111Labs.Foundation.Run

/-!
# The lock of an OSP ramdisk

The lock part of `osprd_info_t`, the open files of the system and the places at
which a process can be stopped inside `osprd_ioctl`.  A call runs without
interruption from one such place to the next.  Open files of other ramdisks are
part of the state because `in_progress` counts them.
-/

namespace Cs111Labs.Osprd

abbrev Pid := Nat

/-- The name of a `struct file`; names are not used again. -/
abbrev Handle := Nat

/-- A C `unsigned`. -/
abbrev Word := BitVec 32

structure Device where
  ticketHead : Word := 0
  ticketTail : Word := 0
  writeIds : Word := 0
  readIds : Word := 0
  writeLocks : Word := 0
  readLocks : Word := 0
  writeOwner : Int := -1
  deriving DecidableEq, Repr

structure File where
  /-- `file2osprd` gives this device, not another one. -/
  onDevice : Bool
  /-- `f_mode & FMODE_WRITE` -/
  writable : Bool
  /-- `f_flags & F_OSPRD_LOCKED` -/
  locked : Bool := false
  /-- `f_count`: descriptors and blocked calls that refer to the file. -/
  count : Nat := 1
  deriving DecidableEq, Repr

/--
Where a process is: outside the module, in `wait_event_interruptible`, or in
the call of `schedule` that follows it.  The local variables of `osprd_ioctl`
are part of the place.
-/
inductive Place where
  | outside
  | waiting (filp : Handle) (filpWritable : Bool) (ticketCur : Word)
      (woken : Bool)
  | scheduled (filp : Handle) (filpWritable : Bool) (ticketCur : Word)
  deriving DecidableEq, Repr

inductive Outcome where
  | ok
  | blocked
  | edeadlk
  | ebusy
  | einval
  | erestartsys
  deriving DecidableEq, Repr

/-- The history, newest entry first. -/
inductive Entry where
  | ticketTaken (pid : Pid) (filp : Handle) (ticketCur : Word)
  | granted (pid : Pid) (filp : Handle) (ticketCur : Option Word)
  | released (filp : Handle)
  | closed (filp : Handle)
  | returned (pid : Pid) (outcome : Outcome)
  deriving DecidableEq, Repr

structure System where
  d : Device := {}
  files : Handle → Option File := fun _ => none
  nextHandle : Handle := 0
  fds : Pid → List Handle := fun _ => []
  place : Pid → Place := fun _ => .outside
  log : List Entry := []

/-- The state that `osprd_setup` leaves. -/
def osprdSetup : System := {}

/-! ## Small updates -/

def System.setPlace (s : System) (pid : Pid) (place : Place) : System :=
  { s with place := Function.update s.place pid place }

def System.setFile (s : System) (filp : Handle) (file : Option File) :
    System :=
  { s with files := Function.update s.files filp file }

def System.record (s : System) (entry : Entry) : System :=
  { s with log := entry :: s.log }

def System.setLocked (s : System) (filp : Handle) (locked : Bool) : System :=
  s.setFile filp ((s.files filp).map fun file => { file with locked := locked })

def Place.wake : Place → Place
  | .waiting filp filpWritable ticketCur _ =>
      .waiting filp filpWritable ticketCur true
  | place => place

/-- `wake_up_all(&d->blockq)` -/
def wakeUpAll (s : System) : System :=
  { s with place := fun pid => (s.place pid).wake }

/-! ## Closing -/

/-- The test `F_OSPRD_LOCKED` is made for readers only. -/
def osprdCloseLast (s : System) (filp : Handle) (file : File) : System :=
  let s :=
    if file.writable then
      wakeUpAll { s with d := { s.d with writeOwner := -1, writeLocks := 0 } }
    else if 0 < s.d.readLocks ∧ file.locked = true then
      wakeUpAll { s with d := { s.d with readLocks := s.d.readLocks - 1 } }
    else s
  (s.setFile filp none).record (.closed filp)

/-- Drop one reference; `_osprd_release` runs with the last one. -/
def fput (s : System) (filp : Handle) : System :=
  match s.files filp with
  | none => s
  | some file =>
      if 1 < file.count then
        s.setFile filp (some { file with count := file.count - 1 })
      else if file.onDevice then osprdCloseLast s filp file
      else s.setFile filp none

def fget (s : System) (filp : Handle) : System :=
  s.setFile filp ((s.files filp).map fun file =>
    { file with count := file.count + 1 })

/-! ## The ioctl calls -/

def condition (d : Device) (ticketCur : Word) (writable : Bool) : Bool :=
  if writable then
    d.writeLocks = 0 ∧ d.readLocks = 0 ∧ ticketCur = d.ticketTail
  else d.writeLocks = 0 ∧ ticketCur = d.ticketTail

def inProgress (file : File) (d : Device) : Device :=
  if file.writable then { d with writeIds := 1 } else { d with readIds := 1 }

def forEachOpenFile (files : Handle → Option File) (fds : List Handle)
    (d : Device) : Device :=
  fds.foldl (fun d filp =>
    match files filp with
    | none => d
    | some file => inProgress file d) d

def refusesAsDeadlock (d : Device) (pid : Pid) (filpWritable : Bool) : Bool :=
  (d.readIds ≠ 0 ∧ filpWritable = true) ∨
    (d.writeIds ≠ 0 ∧ filpWritable = false) ∨
    ((pid : Int) = d.writeOwner ∧ filpWritable = true)

def hasToWait (d : Device) (ticketCur : Word) (filpWritable : Bool) : Bool :=
  if filpWritable then
    0 < d.writeLocks ∨ 0 < d.readLocks ∨ ticketCur ≠ d.ticketTail
  else 0 < d.writeLocks ∨ ticketCur ≠ d.ticketTail

/-- The end of a granted `OSPRDIOCACQUIRE`. -/
def grant (s : System) (pid : Pid) (filp : Handle) (filpWritable : Bool)
    (ticketCur : Word) : System :=
  let d := { s.d with ticketTail := s.d.ticketTail + 1 }
  let d :=
    if filpWritable then
      { d with writeOwner := pid, writeLocks := d.writeLocks + 1 }
    else { d with readLocks := d.readLocks + 1 }
  (({ s with d := d }.setLocked filp true).record
    (.granted pid filp (some ticketCur))).record (.returned pid .ok)

/-- The device after a ticket was taken and the caller's files were seen. -/
def takeTicket (s : System) (pid : Pid) : Device :=
  forEachOpenFile s.files (s.fds pid)
    { s.d with ticketHead := s.d.ticketHead + 1, readIds := 0, writeIds := 0 }

def acquire (s : System) (pid : Pid) (filp : Handle) (filpWritable : Bool) :
    System :=
  let ticketCur := s.d.ticketHead
  let d := takeTicket s pid
  let s := { s with d := d }.record (.ticketTaken pid filp ticketCur)
  if refusesAsDeadlock d pid filpWritable then
    s.record (.returned pid .edeadlk)
  else if hasToWait d ticketCur filpWritable then
    ((fget s filp).setPlace pid
      (.waiting filp filpWritable ticketCur false)).record
        (.returned pid .blocked)
  else grant s pid filp filpWritable ticketCur

def tryAcquire (s : System) (pid : Pid) (filp : Handle)
    (filpWritable : Bool) : System :=
  if filpWritable then
    if 0 < s.d.writeLocks ∨ 0 < s.d.readLocks ∨
        s.d.ticketHead ≠ s.d.ticketTail then
      s.record (.returned pid .ebusy)
    else
      ((({ s with d := { s.d with
        writeOwner := pid, writeLocks := s.d.writeLocks + 1 } }).setLocked
          filp true).record (.granted pid filp none)).record (.returned pid .ok)
  else if 0 < s.d.writeLocks ∨ s.d.ticketHead ≠ s.d.ticketTail then
    s.record (.returned pid .ebusy)
  else
    ((({ s with d := { s.d with
      readLocks := s.d.readLocks + 1 } }).setLocked filp true).record
        (.granted pid filp none)).record (.returned pid .ok)

def release (s : System) (pid : Pid) (filp : Handle) (file : File) : System :=
  if file.locked = false then s.record (.returned pid .einval)
  else
    let s := s.setLocked filp false
    let d :=
      if file.writable then
        { s.d with writeOwner := -1, writeLocks := s.d.writeLocks - 1 }
      else { s.d with readLocks := s.d.readLocks - 1 }
    ((wakeUpAll { s with d := d }).record (.released filp)).record
      (.returned pid .ok)

/-- A waiter that was interrupted passes its ticket on if it is its turn. -/
def interrupt (s : System) (pid : Pid) (filp : Handle) (ticketCur : Word) :
    System :=
  let d :=
    if ticketCur = s.d.ticketTail then
      { s.d with ticketTail := s.d.ticketTail + 1 }
    else s.d
  (fput ({ s with d := d }.setPlace pid .outside) filp).record
    (.returned pid .erestartsys)

/-! ## Steps -/

inductive Action where
  | openFile (pid : Pid) (onDevice writable : Bool)
  /-- `fork`, `dup` or a passed descriptor. -/
  | share (owner pid : Pid) (filp : Handle)
  | close (pid : Pid) (filp : Handle)
  | acquire (pid : Pid) (filp : Handle)
  | tryAcquire (pid : Pid) (filp : Handle)
  | release (pid : Pid) (filp : Handle)
  /-- A waiter runs again after `wake_up_all`. -/
  | resume (pid : Pid)
  /-- A waiter runs again because of a signal. -/
  | signal (pid : Pid)
  /-- `schedule` returns. -/
  | proceed (pid : Pid)
  deriving DecidableEq, Repr

/-- The file behind a descriptor of a process that is not inside a call. -/
def System.descriptor (s : System) (pid : Pid) (filp : Handle) : Option File :=
  if s.place pid = .outside ∧ filp ∈ s.fds pid then s.files filp else none

def System.deviceDescriptor (s : System) (pid : Pid) (filp : Handle) :
    Option File :=
  (s.descriptor pid filp).filter (·.onDevice)

def step : Action → System → Option System
  | .openFile pid onDevice writable, s =>
      if s.place pid = .outside then
        some { s with
          files := Function.update s.files s.nextHandle
            (some { onDevice := onDevice, writable := writable })
          nextHandle := s.nextHandle + 1
          fds := Function.update s.fds pid (s.fds pid ++ [s.nextHandle]) }
      else none
  | .share owner pid filp, s =>
      (s.descriptor owner filp).map fun _ =>
        { fget s filp with fds := Function.update s.fds pid (s.fds pid ++ [filp]) }
  | .close pid filp, s =>
      (s.descriptor pid filp).map fun _ =>
        fput { s with fds := Function.update s.fds pid ((s.fds pid).erase filp) }
          filp
  | .acquire pid filp, s =>
      (s.deviceDescriptor pid filp).map fun file =>
        acquire s pid filp file.writable
  | .tryAcquire pid filp, s =>
      (s.deviceDescriptor pid filp).map fun file =>
        tryAcquire s pid filp file.writable
  | .release pid filp, s =>
      (s.deviceDescriptor pid filp).map fun file => release s pid filp file
  | .resume pid, s =>
      match s.place pid with
      | .waiting filp filpWritable ticketCur true =>
          if condition s.d ticketCur filpWritable then
            some (s.setPlace pid (.scheduled filp filpWritable ticketCur))
          else
            some (s.setPlace pid (.waiting filp filpWritable ticketCur false))
      | _ => none
  | .signal pid, s =>
      match s.place pid with
      | .waiting filp filpWritable ticketCur _ =>
          if condition s.d ticketCur filpWritable then
            some (s.setPlace pid (.scheduled filp filpWritable ticketCur))
          else some (interrupt s pid filp ticketCur)
      | _ => none
  | .proceed pid, s =>
      match s.place pid with
      | .scheduled filp filpWritable ticketCur =>
          some (fput ((grant s pid filp filpWritable ticketCur).setPlace pid
            .outside) filp)
      | _ => none

/-- The handle was granted the lock and has not given it back since. -/
def Holds (filp : Handle) : List Entry → Bool
  | [] => false
  | .granted _ other _ :: older =>
      if other = filp then true else Holds filp older
  | .released other :: older | .closed other :: older =>
      if other = filp then false else Holds filp older
  | _ :: older => Holds filp older

end Cs111Labs.Osprd
