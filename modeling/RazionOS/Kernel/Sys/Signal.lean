import Mathlib.Logic.Function.Basic

/-!
# Signals of a process

The signal state of a process, `send_signal_info`, the dequeuing that `process_check_signals`
does under the lock of the process, and the system calls that change handlers and masks.
-/

namespace RazionOS.Kernel.Sys.Signal
open BitVec

abbrev Sigset := BitVec 64

def numSignals : Nat := 38
def sigIll : Nat := 4
def sigTrap : Nat := 5
def sigKill : Nat := 9
def sigSegv : Nat := 11
def sigStop : Nat := 23
def sigCont : Nat := 25

def ePerm : Int := 1
def eSrch : Int := 3
def eIntr : Int := 4
def eFault : Int := 14
def eInval : Int := 22
def eRestartSigsuspend : Int := 511
def eRestartSys : Int := 512

def saSiginfo : BitVec 32 := 2
def saNodefer : BitVec 32 := 4
def saResethand : BitVec 32 := 8
def saRestart : BitVec 32 := 16
def shiftSignal (signum : Nat) : Sigset := 1#64 <<< signum

inductive Disposition where
  | ign | term | core | stop | cont
deriving DecidableEq

def sigDefaults : Nat → Disposition
  | 1 | 2 | 9 | 13 | 14 | 15 | 16 | 17 | 28 | 29 | 33 => .term
  | 3 | 4 | 5 | 6 | 7 | 8 | 10 | 11 | 12 | 30 | 31 => .core
  | 23 | 24 | 26 | 27 | 37 => .stop
  | 25 => .cont
  | _ => .ign

/-- The handler is an address, 0 for the default action and 1 to ignore the signal. -/
structure SignalConfig where
  handler : BitVec 64
  mask : Sigset
  flags : BitVec 32
deriving DecidableEq

def SignalConfig.has (config : SignalConfig) (flag : BitVec 32) : Bool :=
  config.flags &&& flag != 0

structure Siginfo where
  signo : Nat
  code : Int
  value : Int
  pid : Int
  uid : Int
deriving DecidableEq

def siUser : Int := 0
def siQueue : Int := -1

structure Process where
  signals : Nat → SignalConfig
  blockedSignals : Sigset
  pendingSignals : Sigset
  awaitedSignals : Sigset
  restoredSignals : Sigset
  sigQueue : List Siginfo
  interruptedSystemCall : Int
  isTasklet : Bool
  finished : Bool
  suspended : Bool
  restoreSigmask : Bool
  status : Nat
  user : Nat
  realUser : Nat
  session : Nat

/-- `PENDING`: the signals that can be acted on now. -/
def Process.pending (p : Process) : Sigset :=
  p.pendingSignals &&& (~~~p.blockedSignals ||| shiftSignal sigStop ||| shiftSignal sigKill)

structure Sender where
  id : Nat
  user : Nat
  realUser : Nat
  session : Nat

structure Sent where
  receiver : Process
  result : Int
  /-- The caller's `siginfo_t` afterwards. -/
  cause : Option Siginfo
  /-- Whether `process_awaken_signal` is called for the receiver. -/
  awakened : Bool

def Sender.mayNotSignal (sender : Sender) (receiver : Process) (signal : Int) : Bool :=
  receiver.user != sender.user && sender.user != 0 && receiver.realUser != sender.user &&
    !(signal == sigCont && receiver.session == sender.session)

/-- The part under `sig_lock`. The sender is written after the `siginfo_t` was copied. -/
def markPending (receiver : Process) (sender : Sender) (signal : Nat) (cause : Option Siginfo) :
    Process × Option Siginfo :=
  let pending := receiver.pendingSignals ||| shiftSignal signal
  match cause with
  | none => ({ receiver with pendingSignals := pending }, none)
  | some cause =>
    let heapCause := { cause with signo := signal }
    let cause := if cause.code≤0 then { cause with pid := sender.id, uid := sender.realUser }
      else cause
    ({ receiver with pendingSignals := pending, sigQueue := receiver.sigQueue++[heapCause] },
      some cause)

/-- The flags and the status of a stopped process when it is sent a signal that continues it. -/
def unsuspend (receiver : Process) (signal : Nat) : Process :=
  if sigDefaults signal = .cont ∧ receiver.suspended then
    { receiver with suspended := false, status := 0 }
  else receiver

/-- `send_signal_info` before it takes `sig_lock`: the receiver, and the result, or whether the
receiver is woken once the signal is marked. -/
def testSignal (receiver : Process) (sender : Sender) (signal : Int) (forceRoot : Bool) :
    Process × Except Int Bool :=
  if !forceRoot && sender.mayNotSignal receiver signal then (receiver, .error (-ePerm))
  else if receiver.isTasklet then (receiver, .error (-ePerm))
  else if signal ≥ numSignals ∨ signal<0 then (receiver, .error (-eInval))
  else if receiver.finished then (receiver, .error (-eSrch))
  else if signal=0 then (receiver, .error 0)
  else
    let n := signal.toNat
    -- `awaited` is an `int`: the bits from 32 up are lost
    let awaited := (receiver.awaitedSignals &&& shiftSignal n).setWidth 32 != 0
    let ignored := (receiver.signals n).handler == 0 && sigDefaults n == .ign
    let blocked := receiver.blockedSignals &&& shiftSignal n != 0 && n != sigKill && n != sigStop
    (unsuspend receiver n,
      if !awaited && !blocked && ignored then .error 0 else .ok !(blocked && !awaited))

def sendSignalInfo (receiver : Process) (sender : Sender) (signal : Int) (forceRoot : Bool)
    (cause : Option Siginfo) : Sent :=
  match testSignal receiver sender signal forceRoot with
  | (receiver, .error result) => ⟨receiver,result,cause,false⟩
  | (receiver, .ok awakened) =>
    let (receiver, cause) := markPending receiver sender signal.toNat cause
    ⟨receiver,0,cause,awakened⟩

def heapCause (signal : Nat) (cause : Option Siginfo) : List Siginfo :=
  (cause.map fun cause => { cause with signo := signal }).toList

private theorem unsuspend_eq : ∃ suspended status,
      unsuspend p signal = { p with suspended := suspended, status := status } := by
  unfold unsuspend
  split
  · exact ⟨_,_,rfl⟩
  · exact ⟨p.suspended,p.status,rfl⟩

theorem markPending_eq (p : Process) (sender : Sender) (signal : Nat) (cause : Option Siginfo) :
    (markPending p sender signal cause).1 = { p with
        pendingSignals := p.pendingSignals ||| shiftSignal signal
        sigQueue := p.sigQueue++heapCause signal cause } := by
  cases cause <;> simp [markPending,heapCause]

theorem testSignal_spec (p : Process) (sender : Sender) (signal : Int) (forceRoot : Bool) :
    (∃ suspended status, (testSignal p sender signal forceRoot).1 =
      { p with suspended := suspended, status := status }) ∧
    ∀ awakened, (testSignal p sender signal forceRoot).2 = .ok awakened →
      ∃ n : Nat, 0<n ∧ n<numSignals ∧ signal=n := by
  have hsame : ∃ suspended status, p = { p with suspended := suspended, status := status } :=
    ⟨p.suspended,p.status,rfl⟩
  unfold testSignal
  split
  · exact ⟨hsame,nofun⟩
  split
  · exact ⟨hsame,nofun⟩
  split
  · exact ⟨hsame,nofun⟩
  split
  · exact ⟨hsame,nofun⟩
  split
  · exact ⟨hsame,nofun⟩
  exact ⟨unsuspend_eq,fun _ _ => ⟨signal.toNat,by omega,by omega,by omega⟩⟩

theorem sendSignalInfo_cases (p : Process) (sender : Sender) (signal : Int) (forceRoot : Bool)
    (cause : Option Siginfo) : ∃ suspended status,
    let p' := { p with suspended := suspended, status := status }
    let receiver := (sendSignalInfo p sender signal forceRoot cause).receiver
    receiver=p' ∨ ∃ n : Nat, 0<n ∧ n<numSignals ∧ signal=n ∧ receiver =
      { p' with
        pendingSignals := p.pendingSignals ||| shiftSignal n
        sigQueue := p.sigQueue++heapCause n cause } := by
  obtain ⟨⟨suspended,status,hp⟩,hn⟩ := testSignal_spec p sender signal forceRoot
  refine ⟨suspended,status,?_⟩
  unfold sendSignalInfo
  generalize testSignal p sender signal forceRoot=tested at hp hn ⊢
  rcases tested with ⟨receiver,result | awakened⟩
  · exact .inl hp
  · obtain ⟨n,hpos,hlt,rfl⟩ := hn awakened rfl
    obtain rfl := hp
    exact .inr ⟨n,hpos,hlt,rfl,markPending_eq _ sender n cause⟩

/-- The loop that looks for the lowest bit, with the number of signals that are left. -/
def nextSignal : Nat → Sigset → Nat → Option Nat
  | 0, _, _ => none
  | left+1, set, signal =>
    if set=0 then none
    else if set.getLsbD 0 then some signal
    else nextSignal left (set >>> 1) (signal+1)

def findMatch (signal : Nat) : List Siginfo → Option Siginfo × Bool
  | [] => (none, false)
  | info::rest =>
    if info.signo=signal then (some info, rest.any fun info => info.signo == signal)
    else findMatch signal rest

/-- What `process_check_signals` does for the signal it found, under the lock. -/
def takeSignal (p : Process) (signal : Nat) : Process × Option Siginfo :=
  let (found, stillPending) := findMatch signal p.sigQueue
  let pending := if stillPending then p.pendingSignals
    else p.pendingSignals &&& ~~~shiftSignal signal
  let queue := if found.isSome then p.sigQueue.eraseP fun info => info.signo == signal
    else p.sigQueue
  ({ p with pendingSignals := pending, sigQueue := queue }, found)

def causeOf (signal : Nat) (found : Option Siginfo) : Siginfo :=
  found.getD ⟨signal,siUser,0,0,0⟩

/-- A pointer that a process passes, with what it points to if it can be read. -/
inductive UserPtr (α : Type) where
  | null
  | invalid
  | valid (a : α)

/-- The check `if (ptr) PTRCHECK(ptr, …)` refuses the pointer. -/
def UserPtr.isInvalid {α : Type} : UserPtr α → Bool
  | .invalid => true
  | _ => false

/-- What `PTRCHECK` lets through. -/
def UserPtr.read? {α : Type} : UserPtr α → Option α
  | .valid a => some a
  | _ => none

def refusedSignal (signum : Int) : Prop :=
  (signum ≥ numSignals ∨ signum<0) ∨ signum=sigKill ∨ signum=sigStop

instance (signum : Int) : Decidable (refusedSignal signum) :=
  inferInstanceAs (Decidable (_ ∨ _))

def Process.setSignal (p : Process) (signum : Nat) (config : SignalConfig) : Process :=
  { p with signals := Function.update p.signals signum config }

def sysSignal (p : Process) (signum : Int) (handler : BitVec 64) : Process × Int :=
  if refusedSignal signum then (p, -eInval)
  else
    let old := p.signals signum.toNat
    let config := { old with handler := handler, flags := saRestart }
    (p.setSignal signum.toNat config, old.handler.toInt)

/-- The last component is what is written to `oldact`. -/
def sysSigaction (p : Process) (signum : Int) (act : UserPtr SignalConfig)
    (oldact : UserPtr Unit) : Process × Int × Option SignalConfig :=
  if act.isInvalid ∨ oldact.isInvalid then (p, -eFault, none)
  else if refusedSignal signum then (p, -eInval, none)
  else
    let old := oldact.read?.map fun _ => p.signals signum.toNat
    match act.read? with
    | none => (p, 0, old)
    | some config => (p.setSignal signum.toNat config, 0, old)

def setmask (how : Int) (blocked set : Sigset) : Option Sigset :=
  if how=0 then some set
  else if how=1 then some (blocked ||| set)
  else if how=2 then some (blocked &&& ~~~set)
  else none

/-- The last component is what is written to `oset`. -/
def sysSigprocmask (p : Process) (how : Int) (set : UserPtr Sigset) (oset : UserPtr Unit) :
    Process × Int × Option Sigset :=
  if oset.isInvalid then (p, -eFault, none)
  else
    let old := oset.read?.map fun _ => p.blockedSignals
    match set with
    | .null => (p, 0, old)
    | .invalid => (p, -eFault, old)
    | .valid set =>
      match setmask how p.blockedSignals set with
      | none => (p, -eInval, old)
      | some blocked => ({ p with blockedSignals := blocked }, 0, old)

/-- `sys_sigsuspend` up to its wait. -/
def sysSigsuspend (p : Process) (set : Sigset) : Process :=
  { p with restoredSignals := p.blockedSignals, blockedSignals := set }

def sysSigwait (p : Process) (set : Sigset) : Option Sigset :=
  let awaited := set &&& ~~~(shiftSignal sigKill ||| shiftSignal sigStop)
  if awaited &&& ~~~p.blockedSignals≠0 then none else some awaited

def takeAwaited (p : Process) (awaited : Sigset) : Option (Process × Nat) :=
  (nextSignal numSignals (awaited &&& p.pendingSignals) 0).map fun signal =>
    ({ p with pendingSignals := p.pendingSignals &&& ~~~shiftSignal signal }, signal)

def hasSignal (set : Sigset) (signal : Nat) : Bool := set.getLsbD signal

variable {set set' : Sigset}

@[simp] theorem hasSignal_and : hasSignal (set &&& set') n=(hasSignal set n && hasSignal set' n) :=
  getLsbD_and

@[simp] theorem hasSignal_or : hasSignal (set ||| set') n=(hasSignal set n || hasSignal set' n) :=
  getLsbD_or

theorem hasSignal_not (hn : n<64) : hasSignal (~~~set) n = !hasSignal set n := by
  simp [hasSignal,hn]

theorem hasSignal_shiftSignal (hs : signal<64) :
    hasSignal (shiftSignal signal) n=decide (signal=n) := by
  rw [hasSignal,shiftSignal,← twoPow_eq]
  simp [hs]

theorem lt_of_hasSignal (h : hasSignal set n) : n<64 := lt_of_getLsbD h

theorem hasSignal_clear (hs : signal<64) :
    hasSignal (set &&& ~~~shiftSignal signal) n=(hasSignal set n && decide (signal≠n)) := by
  rw [hasSignal_and]
  cases h : hasSignal set n with
  | false => rfl
  | true => rw [hasSignal_not (lt_of_hasSignal h),hasSignal_shiftSignal hs,decide_not]

theorem hasSignal_shiftRight : hasSignal (set >>> 1) n=hasSignal set (n+1) := by
  rw [hasSignal,hasSignal,getLsbD_ushiftRight,Nat.add_comm]

theorem ne_zero_of_hasSignal (h : hasSignal set n) : set≠0 := by
  rintro rfl
  simp [hasSignal] at h

theorem nextSignal_eq_some (h : nextSignal left set signal=some n) :
    ∃ m<left, n=signal+m ∧ hasSignal set m ∧ ∀ i < m, hasSignal set i=false := by
  induction left generalizing set signal with
  | zero => simp [nextSignal] at h
  | succ left ih =>
    rw [nextSignal] at h
    split at h
    · simp at h
    split at h
    · next hb =>
      obtain rfl := Option.some.inj h
      exact ⟨0,by omega,rfl,hb,by simp⟩
    next hb =>
    obtain ⟨m,hm,rfl,hs,hl⟩ := ih h
    refine ⟨m+1,by omega,by omega,by rwa [← hasSignal_shiftRight],fun i hi => ?_⟩
    cases i with
    | zero => simpa [hasSignal] using hb
    | succ i => rw [← hasSignal_shiftRight,hl i (by omega)]

theorem nextSignal_le (signal : Nat) (hl : n<left) (hb : hasSignal set n) :
    ∃ m≤n, nextSignal left set signal=some (signal+m) := by
  induction left generalizing set signal n with
  | zero => omega
  | succ left ih =>
    rw [nextSignal,if_neg (ne_zero_of_hasSignal hb)]
    split
    · exact ⟨0,by omega,rfl⟩
    next hz =>
    cases n with
    | zero => exact absurd hb hz
    | succ n =>
      rw [← hasSignal_shiftRight] at hb
      obtain ⟨m,hm,hn⟩ := ih _ (by omega) hb
      exact ⟨m+1,by omega,by rw [hn]; congr 1; omega⟩

theorem hasSignal_pending {p : Process} (hn : n<64) :
    hasSignal p.pending n=(hasSignal p.pendingSignals n &&
      (!hasSignal p.blockedSignals n || n == sigStop || n == sigKill)) := by
  simp [Process.pending,hasSignal_not hn, hasSignal_shiftSignal (show sigStop<64 by decide),
    hasSignal_shiftSignal (show sigKill<64 by decide),eq_comm,beq_eq_decide]
end RazionOS.Kernel.Sys.Signal
