import RazionOS.Kernel.Sys.Signal

/-!
# Delivery of signals

A process that is not traced, with what the kernel still has to do for it before it runs user
code again. Other processes send signals between any two steps. A signal handler is entered with
the context on the stack of the process, which may put any other context there.
-/

namespace RazionOS.Kernel.Sys.Signal

/-- What the argument registers and the memory they point to are for each of the calls. -/
structure Args where
  signum : Int
  how : Int
  handler : BitVec 64
  act : UserPtr SignalConfig
  oldact : UserPtr Unit
  set : UserPtr Sigset
  oset : UserPtr Unit
  sig : UserPtr Unit

/-- The registers of the process: that of the number of a system call has the result later. -/
structure Regs where
  number : Int
  args : Args

/-- What the kernel is doing for a process. -/
inductive Activation where
  | syscallHandler
  | systemCall
  /-- In the wait of `sys_sigsuspend`. -/
  | signalWait
  /-- In `signal_await`: before a scan of the pending signals, after it, and asleep. -/
  | signalAwait (awaited : Sigset)
  | arming (awaited : Sigset)
  | awaiting (awaited : Sigset)
  | maybeRestartSystemCall (signum : Int) (noHandler : Bool)
  /-- The end of `maybe_restart_system_call` for an interrupted `sigsuspend`. -/
  | restoreSigmask
  /-- At the `return !PENDING` of `handle_signal`. -/
  | signalIgnored
  | stopped
  | processCheckSignals

/-- The context that a handler returns to. -/
structure SignalFrame where
  regs : Regs
  interruptedSystemCall : Int
  signo : Int
  blockedSignals : Sigset

structure Task where
  proc : Process
  regs : Regs
  /-- Innermost first; a process without any runs user code. -/
  kernel : List Activation
  /-- The contexts pushed for the handlers that have not returned. -/
  frames : List SignalFrame

inductive Syscall where
  | signal | sigaction | sigprocmask | sigsuspend | sigwait | other
deriving DecidableEq

def numSyscalls : Int := 103

def syscalls (number : Int) : Syscall :=
  if number=38 then .signal
  else if number=73 then .sigaction
  else if number=75 then .sigprocmask
  else if number=76 then .sigsuspend
  else if number=77 then .sigwait
  else .other

namespace Task

variable (t : Task) (k : List Activation)

def resume (proc : Process) : Task :=
  { t with proc := proc, kernel := k }

def setNumber (number : Int) : Task :=
  { t with regs := { t.regs with number := number } }

def taskExit (retval : Nat) : Task :=
  t.resume [] { t.proc with finished := true, status := retval%0x10000 }

def finishSyscall (proc : Process) (result : Int) : Task :=
  let interrupted := if result = -eRestartSys ∨ result = -eRestartSigsuspend then t.regs.number
    else proc.interruptedSystemCall
  (t.resume k { proc with interruptedSystemCall := interrupted }).setNumber result

def syscallHandler : Task :=
  let a := t.regs.args
  if t.regs.number<0 ∨ t.regs.number ≥ numSyscalls then t.finishSyscall k t.proc (-eInval)
  else match syscalls t.regs.number with
    | .signal =>
      let (proc, result) := sysSignal t.proc a.signum a.handler
      t.finishSyscall k proc result
    | .sigaction =>
      let (proc, result, _) := sysSigaction t.proc a.signum a.act a.oldact
      t.finishSyscall k proc result
    | .sigprocmask =>
      let (proc, result, _) := sysSigprocmask t.proc a.how a.set a.oset
      t.finishSyscall k proc result
    | .sigsuspend =>
      match a.set.read? with
      | none => t.finishSyscall k t.proc (-eFault)
      | some set => t.resume (.signalWait::k) (sysSigsuspend t.proc set)
    | .sigwait =>
      match a.set.read?, a.sig.read? with
      | some set, some _ =>
        match sysSigwait t.proc set with
        | none => t.finishSyscall k t.proc (-eInval)
        | some awaited => t.resume (.signalAwait awaited::k) t.proc
      | _, _ => t.finishSyscall k t.proc (-eFault)
    | .other => t.resume (.systemCall::k) t.proc

def signalWait : Task :=
  if t.proc.pending=0 then t
  else t.finishSyscall k { t.proc with restoreSigmask := true } (-eRestartSigsuspend)

def signalAwait (awaited : Sigset) : Task :=
  match takeAwaited t.proc awaited with
  | some (proc, _) => t.finishSyscall k proc 0
  | none => t.resume (.arming awaited::k) t.proc

def arm (awaited : Sigset) : Task :=
  t.resume (.awaiting awaited::k) { t.proc with awaitedSignals := awaited }

def wakeAwaiting (awaited : Sigset) : Task :=
  let proc := { t.proc with awaitedSignals := 0 }
  if proc.pending=0 then t.resume (.signalAwait awaited::k) proc
  else t.finishSyscall k proc (-eIntr)

def maybeRestartSystemCall (signum : Int) (noHandler : Bool) : Task :=
  let interrupted := t.proc.interruptedSystemCall
  let proc := { t.proc with interruptedSystemCall := 0 }
  if signum<0 ∨ signum ≥ numSignals then t.resume k t.proc
  else if interrupted≠0 ∧ t.regs.number = -eRestartSys then
    if sigDefaults signum.toNat = .cont ∨ (t.proc.signals signum.toNat).has saRestart then
      (t.resume (.syscallHandler::k) proc).setNumber interrupted
    else (t.resume k proc).setNumber (-eIntr)
  else if interrupted≠0 ∧ t.regs.number = -eRestartSigsuspend then
    if noHandler then
      (t.resume (.syscallHandler :: .restoreSigmask::k) proc).setNumber interrupted
    else (t.resume (.restoreSigmask::k) proc).setNumber (-eIntr)
  else t.resume k t.proc

def restoreSigmask : Task :=
  if t.proc.restoreSigmask then
    t.resume k { t.proc with restoreSigmask := false, blockedSignals := t.proc.restoredSignals }
  else t.resume k t.proc

/-- Pushes the context and runs the handler. The stack may not take it. -/
def archEnterSignalHandler (proc : Process) (config : SignalConfig) (cause : Siginfo)
    (stackOk : Bool) : Task :=
  if stackOk then
    let frame := ⟨t.regs,proc.interruptedSystemCall,cause.signo,proc.blockedSignals⟩
    let mask := config.mask ||| if config.has saNodefer then 0 else shiftSignal cause.signo
    let proc := { proc with interruptedSystemCall := 0
                            blockedSignals := proc.blockedSignals ||| mask }
    { t with proc := proc, kernel := [], frames := frame::t.frames }
  else t.taskExit (((128+sigSegv) <<< 8) ||| sigSegv)

/-- `handle_signal` with what `process_check_signals` does with its result. -/
def handleSignal (signum : Nat) (cause : Siginfo) (stackOk : Bool) : Task :=
  let config := t.proc.signals signum
  let ignore := t.resume (.maybeRestartSystemCall signum true :: .signalIgnored::k) t.proc
  if t.proc.finished then t.resume k t.proc
  else if signum=0 ∨ signum ≥ numSignals then ignore
  else if config.handler=0 then
    match sigDefaults signum with
    | .term | .core => t.taskExit (((128+signum) <<< 8) ||| signum)
    | .stop =>
      let status := 0x7F ||| (signum <<< 8) ||| 0xFF0000
      t.resume (.stopped::k) { t.proc with suspended := true, status := status }
    | .cont => ignore
    | .ign => ignore
  else if config.handler=1 then ignore
  else
    let reset := { config with handler := 0, flags := config.flags &&& ~~~saSiginfo }
    let proc := if signum≠sigIll ∧ signum≠sigTrap ∧ config.has saResethand then
      t.proc.setSignal signum reset else t.proc
    t.archEnterSignalHandler proc config cause stackOk

/-- One round of `process_check_signals`, from `_tryagain`. -/
def processCheckSignals (stackOk : Bool) : Task :=
  if t.proc.finished then t.resume k t.proc
  else match nextSignal numSignals t.proc.pending 0 with
    | none => t.resume k t.proc
    | some signal =>
      let (proc, found) := takeSignal t.proc signal
      (t.resume k proc).handleSignal k signal (causeOf signal found) stackOk

theorem processCheckSignals_cases (stackOk : Bool) :
    (t.processCheckSignals k stackOk=t.resume k t.proc ∧
      (t.proc.finished ∨ nextSignal numSignals t.proc.pending 0=none)) ∨
    ∃ signal, t.proc.finished=false ∧ nextSignal numSignals t.proc.pending 0=some signal ∧
      t.processCheckSignals k stackOk =
        (t.resume k (takeSignal t.proc signal).1).handleSignal k signal
          (causeOf signal (takeSignal t.proc signal).2) stackOk := by
  unfold processCheckSignals
  split
  · next hf => exact .inl ⟨rfl,.inl hf⟩
  next hf =>
  cases hn : nextSignal numSignals t.proc.pending 0 with
  | none => exact .inl ⟨rfl,.inr rfl⟩
  | some signal => exact .inr ⟨signal,by simpa using hf,rfl,rfl⟩

/-- Another round if a signal is pending, as after a signal was ignored or stopped the process. -/
def checkAgain (otherwise : List Activation) : Task :=
  if t.proc.pending=0 then t.resume otherwise t.proc
  else t.resume (.processCheckSignals::k) t.proc

def runKernel (stackOk : Bool) : Task :=
  match t.kernel with
  | [] => t
  | .syscallHandler::k => t.syscallHandler k
  | .systemCall::_ => t
  | .signalWait::k => t.signalWait k
  | .signalAwait awaited::k => t.signalAwait k awaited
  | .arming awaited::k => t.arm k awaited
  | .awaiting awaited::k => t.wakeAwaiting k awaited
  | .maybeRestartSystemCall signum noHandler::k => t.maybeRestartSystemCall k signum noHandler
  | .restoreSigmask::k => t.restoreSigmask k
  | .signalIgnored::k => t.checkAgain k k
  | .stopped::k => t.checkAgain k (.stopped::k)
  | .processCheckSignals::k => t.processCheckSignals k stackOk

/-- `return_from_signal_handler` in the handler of the page fault. -/
def returnFromSignalHandler (frame : SignalFrame) : Task :=
  let proc := { t.proc with blockedSignals := frame.blockedSignals
                            interruptedSystemCall := frame.interruptedSystemCall }
  let k := [.maybeRestartSystemCall frame.signo false, .processCheckSignals]
  { proc := proc, regs := frame.regs, frames := t.frames.tail,
    kernel := if proc.pending=0 then k else .processCheckSignals::k }
end Task

inductive Event where
  | send (sender : Sender) (signal : Int) (forceRoot : Bool) (cause : Option Siginfo)
  | syscall (regs : Regs)
  /-- An interrupt, with the registers the process has then. -/
  | interrupt (regs : Regs)
  /-- A handler returns to the context on the stack, which may not be readable. -/
  | sigreturn (frame : Option SignalFrame)
  | systemCallReturns (result : Int)
  | systemCallExits (retval : Nat)
  | systemCallSetsIds (user realUser session : Nat)
  | run (stackOk : Bool)

def step (t : Task) : Event → Task
  | .send sender signal forceRoot cause =>
    { t with proc := (sendSignalInfo t.proc sender signal forceRoot cause).receiver }
  | .syscall regs =>
    if t.kernel.isEmpty ∧ ¬t.proc.finished then
      { t with regs := regs, kernel := [.syscallHandler, .processCheckSignals] }
    else t
  | .interrupt regs =>
    if t.kernel.isEmpty ∧ ¬t.proc.finished then
      { t with regs := regs, kernel := [.processCheckSignals] }
    else t
  | .sigreturn frame =>
    if t.kernel.isEmpty ∧ ¬t.proc.finished then
      match frame with
      | none => t.taskExit (((128+sigSegv) <<< 8) ||| sigSegv)
      | some frame => t.returnFromSignalHandler frame
    else t
  | .systemCallReturns result =>
    match t.kernel with
    -- only `sys_sigsuspend` returns `-ERESTARTSIGSUSPEND`
    | .systemCall::k =>
      if result = -eRestartSigsuspend then t else t.finishSyscall k t.proc result
    | _ => t
  | .systemCallExits retval =>
    match t.kernel with
    | .systemCall::_ => t.taskExit retval
    | _ => t
  | .systemCallSetsIds user realUser session =>
    match t.kernel with
    | .systemCall::_ =>
      { t with proc := { t.proc with user := user, realUser := realUser, session := session } }
    | _ => t
  | .run stackOk => t.runKernel stackOk

def run (t : Task) (events : List Event) : Task := events.foldl step t

/-- The signal state that `calloc` and `spawn_init` leave. -/
def initProcess : Process where
  signals := fun _ => ⟨0,0,0⟩
  blockedSignals := 0
  pendingSignals := 0
  awaitedSignals := 0
  restoredSignals := 0
  sigQueue := []
  interruptedSystemCall := 0
  isTasklet := false
  finished := false
  suspended := false
  restoreSigmask := false
  status := 0
  user := 0
  realUser := 0
  session := 0

def Process.fork (parent : Process) : Process :=
  { initProcess with
    signals := parent.signals
    blockedSignals := parent.blockedSignals
    isTasklet := parent.isTasklet
    user := parent.user
    realUser := parent.realUser
    session := parent.session }

def Process.exec (p : Process) : Process :=
  { p with signals := fun i =>
      let config := p.signals i
      if i<numSignals ∧ config.handler≠1 then { config with handler := 0, flags := 0 }
      else config }

/-- The tasks of all processes: of the first one, and of those that a process forks or becomes. -/
inductive Reachable : Task → Prop where
  | init (regs : Regs) : Reachable ⟨initProcess,regs,[],[]⟩
  | fork (h : Reachable t) (hcall : t.kernel = .systemCall::k) :
      Reachable ⟨t.proc.fork,{ t.regs with number := 0 },[],t.frames⟩
  | exec (h : Reachable t) (hcall : t.kernel = .systemCall::k)
      (regs : Regs) : Reachable ⟨t.proc.exec,regs,[],[]⟩
  | step (e : Event) (h : Reachable t) : Reachable (step t e)

theorem Reachable.run (h : Reachable t) (events : List Event) : Reachable (run t events) := by
  induction events generalizing t with
  | nil => exact h
  | cons e events ih => exact ih (h.step e)
end RazionOS.Kernel.Sys.Signal
