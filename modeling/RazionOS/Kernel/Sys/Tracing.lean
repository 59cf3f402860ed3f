import RazionOS.Kernel.Sys.Waitpid

/-!
# Tracing

The tracing relation is stored twice: in the tracer field of the tracee and in the list of tracees
of the tracer. It is changed by `ptrace`, by `fork` and `clone`, by exits and by `waitpid`.
-/

namespace RazionOS.Kernel.Tracing
open Waitpid Function

def ePerm : Int := 1
def eSrch : Int := 3
def eInval : Int := 22

inductive Fault where
  | nullPointer
  | useAfterFree
deriving DecidableEq

structure State where
  procs : Nat → Process
  parent : Nat → Option Nat
  children : Nat → List Nat
  nextPid : Nat

def init : Nat := 1

def start : State :=
  { procs := fun id => newProcess id id 0 false
    parent := fun _ => none
    children := fun _ => []
    nextPid := 2 }

namespace State

variable (s : State)

def setProcs (procs : Nat → Process) : State := { s with procs }
def setProc (id : Nat) (p : Process) : State := s.setProcs (update s.procs id p)
def valid (id : Nat) : Bool := 0 < id && id < s.nextPid && !(s.procs id).deleted
def live (id : Nat) : Bool := s.valid id && !(s.procs id).finished
end State

def processFromPid (pid : Int) (s : State) : Option Nat :=
  if pid<0 then none else if s.valid pid.toNat then some pid.toNat else none

def ptraceAttach (caller : Nat) (pid : Int) (s : State) : Int × State :=
  match processFromPid pid s with
  | none => (-eSrch, s)
  | some tracee =>
    if (s.procs caller).user≠0 ∧ (s.procs caller).user≠(s.procs tracee).user then (-ePerm, s)
    else (0, s.setProcs (ptraceTrace caller tracee s.procs))

def ptraceSelf (caller : Nat) (s : State) : Int × State :=
  match s.parent caller with
  | none => (-eInval, s)
  | some tracer => (0, s.setProcs (ptraceTrace tracer caller s.procs))

def signalAndContinue (sig : BitVec 32) (tracee : Process) : Process :=
  let signal := (tracee.status >>> (8 : Nat)) &&& 0xFF
  let reason := tracee.status >>> (16 : Nat)
  if signal≠0 ∧ (reason=0 ∨ reason=0xFF) then
    { tracee with suspended := false, status := sig <<< (8 : Nat) }
  else { tracee with suspended := false }

def ptraceDetach (caller : Nat) (pid : Int) (sig : BitVec 32) (s : State) : Int × State :=
  match processFromPid pid s with
  | none => (-eSrch, s)
  | some tracee =>
    let s := s.setProcs (ptraceUntrace caller tracee s.procs)
    let p := s.procs tracee
    if p.tracer≠caller ∨ p.suspended=false then (-eSrch, s)
    else (0, s.setProc tracee (signalAndContinue sig { p with tracer := 0 }))

def ptraceSetoptions (caller : Nat) (pid : Int) (traceFork traceClone : Bool) (s : State) :
    Int × State :=
  match processFromPid pid s with
  | none => (-eSrch, s)
  | some tracee =>
    if (s.procs tracee).tracer≠caller then (-eSrch, s)
    else (0, s.setProc tracee { s.procs tracee with traceFork, traceClone })

def spawnProcess (parent process : Nat) (tasklet : Bool) (s : State) : State :=
  let id := s.nextPid
  let p := newProcess process (s.procs parent).job (s.procs parent).user tasklet
  { s.setProc id p with
    parent := update s.parent id (some parent)
    children := update s.children parent (s.children parent++[id])
    nextPid := id+1 }

/-- `fork` and `clone`, with the leader of the new process and whether it is to be traced. -/
def forkWith (caller process : Nat) (traced : Bool) (s : State) : Except Fault (Nat × State) :=
  let p := s.procs caller
  let id := s.nextPid
  if (s.procs p.process).deleted then .error .nullPointer
  else
    let s := spawnProcess p.process process p.tasklet s
    if traced && p.tracer != 0 then
      match processFromPid p.tracer s with
      | none => .error .nullPointer
      | some tracer => .ok (id, s.setProcs (ptraceTrace tracer id s.procs))
    else .ok (id, s)

def fork (caller : Nat) (s : State) : Except Fault (Nat × State) :=
  forkWith caller s.nextPid (s.procs caller).traceFork s

def clone (caller : Nat) (s : State) : Except Fault (Nat × State) :=
  forkWith caller (s.procs caller).process (s.procs caller).traceClone s

def treeRemoveReparentRoot (c : Nat) (s : State) : State :=
  match s.parent c with
  | none => s
  | some parent =>
    let orphans := s.children c
    let children := update s.children parent ((s.children parent).erase c)
    let children := update children init (children init++orphans)
    { s with
      parent := fun id => if id∈orphans then some init else s.parent id
      children := update children c [] }

def processDelete (c : Nat) (s : State) : State :=
  if (s.procs c).deleted ∨ c=init then s
  else (treeRemoveReparentRoot c s).setProc c { s.procs c with deleted := true }

/-- One round of `waitpid`; the call goes to sleep if there is no candidate. -/
def waitpid (caller : Nat) (pid : Int) (options : Options) (s : State) : Except Fault State :=
  let leader := (s.procs caller).process
  if (s.procs leader).deleted then .error .nullPointer
  else
    let found := findCandidate s.procs caller pid options (s.children leader)
    if found.seen.any fun c => (s.procs c).deleted then .error .useAfterFree
    else
      match found.candidate with
      | none => .ok s
      | some (c, true) =>
        let p := { s.procs c with status := (s.procs c).status &&& ~~~0xFF }
        let s := s.setProc c p
        if p.finished then .ok (processDelete c s) else .ok s
      | some (c, false) =>
        if (s.procs c).tracer≠caller then .ok (s.setProcs (ptraceUntrace caller c s.procs))
        else .ok s

inductive Event where
  | attach (caller : Nat) (pid : Int)
  | traceme (caller : Nat)
  | detach (caller : Nat) (pid : Int) (sig : BitVec 32)
  | setoptions (caller : Nat) (pid : Int) (traceFork traceClone : Bool)
  | fork (caller : Nat)
  | clone (caller : Nat)
  | exit (caller : Nat) (retval : BitVec 32)
  | waitpid (caller : Nat) (pid : Int) (options : Options)
  | stop (id : Nat) (status : BitVec 32)
  | resume (id : Nat)

def Event.caller : Event → Nat
  | .attach caller _ | .traceme caller | .detach caller _ _ | .setoptions caller _ _ _
  | .fork caller | .clone caller | .exit caller _ | .waitpid caller _ _ | .stop caller _
  | .resume caller => caller

def call (s : State) : Event → Except Fault State
  | .attach caller pid => .ok (ptraceAttach caller pid s).2
  | .traceme caller => .ok (ptraceSelf caller s).2
  | .detach caller pid sig => .ok (ptraceDetach caller pid sig s).2
  | .setoptions caller pid traceFork traceClone =>
    .ok (ptraceSetoptions caller pid traceFork traceClone s).2
  | .fork caller => (fork caller s).map Prod.snd
  | .clone caller => (clone caller s).map Prod.snd
  | .exit caller retval => .ok (s.setProcs (taskExit caller retval s.procs))
  | .waitpid caller pid options => waitpid caller pid options s
  | .stop id status => .ok (s.setProc id { s.procs id with suspended := true, status })
  | .resume id => .ok (s.setProc id { s.procs id with suspended := false })

def step (s : State) (e : Event) : Except Fault State :=
  if s.live e.caller then call s e else .ok s
end RazionOS.Kernel.Tracing
