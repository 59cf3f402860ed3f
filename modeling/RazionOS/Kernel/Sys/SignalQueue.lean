import RazionOS.Framework.Runs
import RazionOS.Kernel.Sys.SignalDelivery

/-!
# Queued signals

A signal that is sent with a `siginfo_t` is both a bit of `pending_signals` and an entry of
`sig_queue`. Delivery takes the oldest entry of its signal; `signal_await` clears the bit and
leaves the entries.
-/

namespace RazionOS.Kernel.Sys.Signal
open Framework List Option Signal.Task

def ofSignal (signal : Nat) (infos : List Siginfo) : List Siginfo :=
  infos.filter fun info => info.signo == signal

/-- The signal that `process_check_signals` acts on in this step. -/
def delivers (t : Task) : Event → Option Nat
  | .run _ =>
    match t.kernel with
    | .processCheckSignals::_ =>
      if t.proc.finished then none else nextSignal numSignals t.proc.pending 0
    | _ => none
  | _ => none

def sigwaits (t : Task) : Event → Option Nat
  | .run _ =>
    match t.kernel with
    | .signalAwait awaited::_ => (takeAwaited t.proc awaited).map Prod.snd
    | _ => none
  | _ => none

def accepts (t : Task) : Event → List Siginfo
  | .send sender signal forceRoot cause =>
    (sendSignalInfo t.proc sender signal forceRoot cause).receiver.sigQueue.drop
      t.proc.sigQueue.length
  | _ => []

structure Ledger where
  task : Task
  accepted : List Siginfo
  consumed : List Siginfo

/-- A delivery consumes its entry, and a `sigwait` should consume the oldest of its signal. -/
def consumes (l : Ledger) (e : Event) : List Siginfo :=
  match delivers l.task e, sigwaits l.task e with
  | some signal, _ => (takeSignal l.task.proc signal).2.toList
  | none, some signal =>
    ((ofSignal signal l.accepted).drop (ofSignal signal l.consumed).length).head?.toList
  | none, none => []

def stepLedger (l : Ledger) (e : Event) : Ledger where
  task := step l.task e
  accepted := l.accepted++accepts l.task e
  consumed := l.consumed++consumes l e

/-- Every queued entry has its bit, and those of each signal are consumed once and in order. -/
structure Consistent (l : Ledger) : Prop where
  pending : ∀ info∈l.task.proc.sigQueue, hasSignal l.task.proc.pendingSignals info.signo
  consumed : ∀ signal, ofSignal signal l.accepted =
    ofSignal signal l.consumed++ofSignal signal l.task.proc.sigQueue

def DeliversOldest (l : Ledger) (e : Event) : Prop :=
  ∀ signal info, delivers l.task e=some signal → (takeSignal l.task.proc signal).2=some info →
    ∃ later, ofSignal signal l.accepted=ofSignal signal l.consumed++info::later

def QueueCorrect (l : Ledger) (e : Event) : Prop :=
  DeliversOldest l e ∧ Consistent (stepLedger l e)

/-- If a `sigwait` returns with a signal in this step, no entry of the signal is queued. -/
def SigwaitPlain (l : Ledger) (e : Event) : Prop :=
  ∀ signal, sigwaits l.task e=some signal → ofSignal signal l.task.proc.sigQueue=[]

theorem findMatch_eq : findMatch signal infos =
    ((ofSignal signal infos).head?, !(ofSignal signal infos).tail.isEmpty) := by
  induction infos with
  | nil => rfl
  | cons info infos ih =>
    rw [findMatch]
    split
    · next h =>
      have ha : (infos.any fun info => info.signo == signal) =
          !(ofSignal signal infos).isEmpty := by
        rw [Bool.eq_iff_iff]
        simp [ofSignal]
      simpa [ofSignal,h] using ha
    · next h => simp [ofSignal,h,ih]

private theorem ofSignal_eraseP_self :
    ofSignal signal (infos.eraseP fun info => info.signo == signal) =
      (ofSignal signal infos).tail := by
  induction infos with
  | nil => rfl
  | cons info infos ih =>
    by_cases h : info.signo=signal
    · simp [ofSignal,h]
    · simpa [ofSignal,h] using ih

private theorem ofSignal_eraseP_of_ne (h : other≠signal) :
    ofSignal other (infos.eraseP fun info => info.signo == signal)=ofSignal other infos := by
  induction infos with
  | nil => rfl
  | cons info infos ih =>
    by_cases hi : info.signo=signal
    · simp [ofSignal,hi,h.symm]
    rw [eraseP_cons_of_neg (by simpa using hi)]
    simp only [ofSignal,filter_cons] at ih ⊢
    rw [ih]

theorem takeSignal_found : (takeSignal p signal).2=(ofSignal signal p.sigQueue).head? := by
  simp [takeSignal,findMatch_eq]

theorem takeSignal_queue :
    (takeSignal p signal).1.sigQueue=p.sigQueue.eraseP fun info => info.signo == signal := by
  simp only [takeSignal,findMatch_eq]
  split
  · rfl
  next h =>
  refine (eraseP_of_forall_not fun info hi => ?_).symm
  simp only [isSome_iff_ne_none,head?_eq_none_iff,not_not,ofSignal, filter_eq_nil_iff] at h
  exact h info hi

theorem hasSignal_takeSignal (hs : signal<64) :
    hasSignal (takeSignal p signal).1.pendingSignals other=(hasSignal p.pendingSignals other &&
        (decide (signal≠other) || !(ofSignal signal p.sigQueue).tail.isEmpty)) := by
  simp only [takeSignal,findMatch_eq]
  cases he : (ofSignal signal p.sigQueue).tail.isEmpty with
  | false => simp
  | true => simpa using hasSignal_clear hs

structure QueueKept (p p' : Process) : Prop where
  pending : p'.pendingSignals=p.pendingSignals
  queue : p'.sigQueue=p.sigQueue

variable {t : Task}

private theorem sysSignal_queueKept (handler : BitVec 64) :
    QueueKept p (sysSignal p signum handler).1 := by
  unfold sysSignal
  split <;> exact ⟨rfl,rfl⟩

private theorem sysSigaction_queueKept : QueueKept p (sysSigaction p signum act oldact).1 := by
  unfold sysSigaction
  split
  · exact ⟨rfl,rfl⟩
  split
  · exact ⟨rfl,rfl⟩
  · cases act.read? <;> exact ⟨rfl,rfl⟩

private theorem sysSigprocmask_queueKept (how : Int) (set : UserPtr Sigset) :
    QueueKept p (sysSigprocmask p how set oset).1 := by
  unfold sysSigprocmask
  split
  · exact ⟨rfl,rfl⟩
  cases set with
  | null => exact ⟨rfl,rfl⟩
  | invalid => exact ⟨rfl,rfl⟩
  | valid set =>
    simp only
    cases setmask how p.blockedSignals set <;> exact ⟨rfl,rfl⟩

private theorem finishSyscall_queueKept (h : QueueKept t.proc p) :
    QueueKept t.proc (t.finishSyscall k p result).proc := ⟨h.pending,h.queue⟩

private theorem syscallHandler_queueKept : QueueKept t.proc (t.syscallHandler k).proc := by
  unfold syscallHandler
  split
  · exact ⟨rfl,rfl⟩
  cases syscalls t.regs.number with
  | signal => exact finishSyscall_queueKept (sysSignal_queueKept _)
  | sigaction => exact finishSyscall_queueKept sysSigaction_queueKept
  | sigprocmask => exact finishSyscall_queueKept (sysSigprocmask_queueKept _ _)
  | sigsuspend =>
    simp only
    split <;> exact ⟨rfl,rfl⟩
  | sigwait =>
    simp only
    split
    · split <;> exact ⟨rfl,rfl⟩
    · exact ⟨rfl,rfl⟩
  | other => exact ⟨rfl,rfl⟩

private theorem maybeRestartSystemCall_queueKept :
    QueueKept t.proc (t.maybeRestartSystemCall k signum noHandler).proc := by
  simp only [maybeRestartSystemCall]
  split
  · exact ⟨rfl,rfl⟩
  split
  · split <;> exact ⟨rfl,rfl⟩
  split
  · split <;> exact ⟨rfl,rfl⟩
  · exact ⟨rfl,rfl⟩

private theorem archEnterSignalHandler_queueKept (h : QueueKept t.proc p) :
    QueueKept t.proc (t.archEnterSignalHandler p config cause stackOk).proc := by
  unfold archEnterSignalHandler
  split
  · exact ⟨h.pending,h.queue⟩
  · exact ⟨rfl,rfl⟩

private theorem handleSignal_queueKept :
    QueueKept t.proc (t.handleSignal k signal cause stackOk).proc := by
  simp only [handleSignal]
  split
  · exact ⟨rfl,rfl⟩
  split
  · exact ⟨rfl,rfl⟩
  split
  · cases sigDefaults signal <;> exact ⟨rfl,rfl⟩
  split
  · exact ⟨rfl,rfl⟩
  · refine archEnterSignalHandler_queueKept ?_
    split <;> exact ⟨rfl,rfl⟩

theorem run_delivers (h : delivers t (.run stackOk)=some signal) :
    signal<64 ∧ QueueKept (takeSignal t.proc signal).1 (step t (.run stackOk)).proc := by
  simp only [delivers] at h
  split at h
  · next k hk =>
    split at h
    · simp at h
    next hf =>
    obtain ⟨m,-,heq,hb,-⟩ := nextSignal_eq_some h
    obtain rfl : signal=m := by omega
    refine ⟨lt_of_hasSignal hb,?_⟩
    simp only [step,runKernel,hk]
    obtain ⟨-,he | he⟩ | ⟨n,-,hn,hs⟩ := t.processCheckSignals_cases k stackOk
    · exact absurd he hf
    · simp [h] at he
    obtain rfl : signal=n := some.inj (h.symm.trans hn)
    rw [hs]
    exact handleSignal_queueKept (t := t.resume k (takeSignal t.proc signal).1)
  · simp at h

theorem run_sigwaits (h : sigwaits t (.run stackOk)=some signal) :
    signal<64 ∧ (step t (.run stackOk)).proc.sigQueue=t.proc.sigQueue ∧
      (step t (.run stackOk)).proc.pendingSignals =
        t.proc.pendingSignals &&& ~~~shiftSignal signal := by
  simp only [sigwaits] at h
  split at h
  · next awaited k hk =>
    simp only [step,runKernel,hk,signalAwait]
    simp only [takeAwaited] at h ⊢
    cases hn : nextSignal numSignals (awaited &&& t.proc.pendingSignals) 0 with
    | none => simp [hn] at h
    | some n =>
      obtain rfl : n=signal := by simpa [hn] using h
      obtain ⟨m,-,heq,hb,-⟩ := nextSignal_eq_some hn
      obtain rfl : n=m := by omega
      exact ⟨lt_of_hasSignal hb,rfl,rfl⟩
  · simp at h

theorem run_queueKept (h : delivers t (.run stackOk)=none) (h' : sigwaits t (.run stackOk)=none) :
    QueueKept t.proc (step t (.run stackOk)).proc := by
  simp only [step,runKernel]
  cases hk : t.kernel with
  | nil => exact ⟨rfl,rfl⟩
  | cons a k =>
    cases a with
    | syscallHandler => exact syscallHandler_queueKept
    | systemCall => exact ⟨rfl,rfl⟩
    | signalWait =>
      simp only [signalWait]
      split <;> exact ⟨rfl,rfl⟩
    | signalAwait awaited =>
      simp only [sigwaits,hk,map_eq_none_iff] at h'
      simp only [signalAwait,h']
      exact ⟨rfl,rfl⟩
    | arming awaited => exact ⟨rfl,rfl⟩
    | awaiting awaited =>
      simp only [wakeAwaiting]
      split <;> exact ⟨rfl,rfl⟩
    | maybeRestartSystemCall signum noHandler => exact maybeRestartSystemCall_queueKept
    | restoreSigmask =>
      simp only [restoreSigmask]
      split <;> exact ⟨rfl,rfl⟩
    | signalIgnored | stopped =>
      simp only [checkAgain]
      split <;> exact ⟨rfl,rfl⟩
    | processCheckSignals =>
      simp only [delivers,hk] at h
      simp only
      obtain ⟨hs,-⟩ | ⟨n,hf,hn,-⟩ := t.processCheckSignals_cases k stackOk
      · rw [hs]
        exact ⟨rfl,rfl⟩
      · simp [hn,hf] at h

theorem step_queueKept (hr : ∀ stackOk, e ≠ .run stackOk)
    (hs : ∀ sender signal forceRoot cause, e ≠ .send sender signal forceRoot cause) :
    QueueKept t.proc (step t e).proc := by
  cases e with
  | send sender signal forceRoot cause => exact absurd rfl (hs _ _ _ _)
  | syscall regs | interrupt regs =>
    simp only [step]
    split <;> exact ⟨rfl,rfl⟩
  | sigreturn frame =>
    simp only [step]
    split
    · cases frame <;> exact ⟨rfl,rfl⟩
    · exact ⟨rfl,rfl⟩
  | systemCallReturns result =>
    simp only [step]
    split
    · split <;> exact ⟨rfl,rfl⟩
    · exact ⟨rfl,rfl⟩
  | systemCallExits retval =>
    simp only [step]
    split <;> exact ⟨rfl,rfl⟩
  | systemCallSetsIds user realUser session =>
    simp only [step]
    split <;> exact ⟨rfl,rfl⟩
  | run stackOk => exact absurd rfl (hr _)

theorem Consistent.kept (h : Consistent l) (hk : QueueKept l.task.proc (step l.task e).proc)
    (ha : accepts l.task e=[]) (hc : consumes l e=[]) : Consistent (stepLedger l e) := by
  refine ⟨fun info hi => ?_,fun signal => ?_⟩
  · simp only [stepLedger,hk.pending,hk.queue] at hi ⊢
    exact h.pending info hi
  · simp only [stepLedger,hk.queue,ha,hc,append_nil]
    exact h.consumed signal

theorem ofSignal_append :
    ofSignal signal (infos++infos')=ofSignal signal infos++ofSignal signal infos' :=
  filter_append infos infos'

theorem mem_ofSignal : info∈ofSignal signal infos ↔ info∈infos ∧ info.signo=signal := by
  simp [ofSignal]

private theorem Consistent.sent (h : Consistent l) :
    Consistent (stepLedger l (.send sender signal forceRoot cause)) := by
  obtain ⟨_,_,hr | ⟨n,-,hlt,-,hr⟩⟩ := sendSignalInfo_cases l.task.proc sender signal forceRoot cause
  · exact h.kept ⟨by simp [step,hr],by simp [step,hr]⟩ (by simp [accepts,hr]) rfl
  have ha : accepts l.task (.send sender signal forceRoot cause)=heapCause n cause := by
    simp [accepts,hr]
  have hc : consumes l (.send sender signal forceRoot cause)=[] := rfl
  refine ⟨fun info hi => ?_,fun s => ?_⟩
  · simp only [stepLedger,step,hr,mem_append,hasSignal_or,Bool.or_eq_true] at hi ⊢
    obtain hi | hi := hi
    · exact .inl (h.pending info hi)
    simp only [heapCause,mem_toList,map_eq_some_iff] at hi
    obtain ⟨cause,-,rfl⟩ := hi
    have hn : n<64 := Nat.lt_trans hlt (by decide)
    exact .inr (by simp [hasSignal_shiftSignal hn])
  · simp only [stepLedger,ha,hc,step,hr,ofSignal_append,append_nil]
    rw [h.consumed,append_assoc]

private theorem ofSignal_head : ofSignal other (ofSignal signal infos).head?.toList =
      if other=signal then (ofSignal signal infos).head?.toList else [] := by
  cases hi : ofSignal signal infos with
  | nil => simp [ofSignal]
  | cons info rest =>
    have hmem : info∈ofSignal signal infos := by simp [hi]
    have hs := (mem_ofSignal.1 hmem).2
    by_cases ho : other=signal
    · simp [ofSignal,hs,ho]
    · simp [ofSignal,hs,ho,Ne.symm]

private theorem Consistent.delivered (h : Consistent l)
    (hd : delivers l.task (.run stackOk)=some signal) :
    Consistent (stepLedger l (.run stackOk)) := by
  obtain ⟨hsi,hk⟩ := run_delivers hd
  have hc : consumes l (.run stackOk)=(ofSignal signal l.task.proc.sigQueue).head?.toList := by
    simp [consumes,hd,takeSignal_found]
  have hq := hk.queue.trans takeSignal_queue
  refine ⟨fun info hi => ?_,fun s => ?_⟩
  · simp only [stepLedger,hk.pending,hq] at hi ⊢
    rw [hasSignal_takeSignal hsi,h.pending info (mem_of_mem_eraseP hi),Bool.true_and,
      Bool.or_eq_true,decide_eq_true_eq]
    by_cases hi' : signal=info.signo
    · have hmem := mem_ofSignal.2 ⟨hi,hi'.symm⟩
      rw [ofSignal_eraseP_self] at hmem
      exact .inr (by simpa using ne_nil_of_mem hmem)
    · exact .inl hi'
  · have ha : accepts l.task (.run stackOk)=[] := rfl
    simp only [stepLedger,ha,hc,hq,ofSignal_append,ofSignal_head,append_nil,h.consumed]
    split
    · next hs =>
      subst hs
      rw [ofSignal_eraseP_self,append_assoc]
      cases ofSignal s l.task.proc.sigQueue <;> rfl
    · next hs => rw [ofSignal_eraseP_of_ne hs,append_nil]

private theorem Consistent.waited (h : Consistent l) (hn : delivers l.task (.run stackOk)=none)
    (hw : sigwaits l.task (.run stackOk)=some signal)
    (hp : ofSignal signal l.task.proc.sigQueue=[]) :
    Consistent (stepLedger l (.run stackOk)) := by
  obtain ⟨hs,hq,hpe⟩ := run_sigwaits hw
  have ha : accepts l.task (.run stackOk)=[] := rfl
  have hc : consumes l (.run stackOk)=[] := by
    simp [consumes,hn,hw,h.consumed,hp]
  refine ⟨fun info hi => ?_,fun s => ?_⟩
  · simp only [stepLedger,hq,hpe] at hi ⊢
    have hne : signal≠info.signo := by
      rintro rfl
      exact absurd (mem_ofSignal.2 ⟨hi,rfl⟩) (by simp [hp])
    rw [hasSignal_clear hs,h.pending info hi]
    simpa using hne
  · simp only [stepLedger,hq,ha,hc,append_nil]
    exact h.consumed s

private theorem stepLedger_consistent (h : Consistent l) (hp : SigwaitPlain l e) :
    Consistent (stepLedger l e) := by
  cases e with
  | send sender signal forceRoot cause => exact h.sent
  | run stackOk =>
    cases hd : delivers l.task (.run stackOk) with
    | some signal => exact h.delivered hd
    | none =>
      cases hw : sigwaits l.task (.run stackOk) with
      | some signal => exact h.waited hd hw (hp signal hw)
      | none =>
        exact h.kept (run_queueKept hd hw) rfl (by simp [consumes,hd,hw])
  | _ => exact h.kept (step_queueKept (by simp) (by simp)) rfl rfl

private theorem Consistent.deliversOldest (h : Consistent l) : DeliversOldest l e := by
  intro signal info _ hf
  rw [takeSignal_found] at hf
  obtain ⟨later,hl⟩ := head?_eq_some_iff.1 hf
  exact ⟨later,by rw [h.consumed,hl]⟩

/-- A `sigwait` that leaves an entry without its bit. -/
theorem sigwaitPlain_of_consistent (h : Consistent (stepLedger l e)) : SigwaitPlain l e := by
  intro signal hw
  cases e with
  | run stackOk =>
    obtain ⟨hs,hq,hp⟩ := run_sigwaits hw
    refine eq_nil_iff_forall_not_mem.2 fun info hi => ?_
    obtain ⟨hmem,rfl⟩ := mem_ofSignal.1 hi
    have hb := h.pending info (by simpa [stepLedger,hq] using hmem)
    simp [stepLedger,hp,hasSignal_clear hs] at hb
  | _ => simp [sigwaits] at hw

private theorem queueCorrect_iff (h : Consistent l) : QueueCorrect l e ↔ SigwaitPlain l e :=
  ⟨fun hc => sigwaitPlain_of_consistent hc.2,
    fun hp => ⟨h.deliversOldest,stepLedger_consistent h hp⟩⟩

def Ledger.start (parent : Process) (regs : Regs) (frames : List SignalFrame) : Ledger :=
  ⟨⟨parent.fork,regs,[],frames⟩,[],[]⟩

/-- The entries of the queue are right all along exactly if every `sigwait` returns with a signal
that has no entry queued. -/
theorem sigQueue_correct_iff (parent : Process) (regs : Regs) (frames : List SignalFrame)
    (events : List Event) : Along stepLedger QueueCorrect (.start parent regs frames) events ↔
      Along stepLedger SigwaitPlain (.start parent regs frames) events := by
  have hs : Consistent (.start parent regs frames) := by
    refine ⟨?_,fun _ => rfl⟩
    intro info hi
    simp [Ledger.start,Process.fork,initProcess] at hi
  exact Along.congr (fun _ _ _ hc => hc.2) (fun _ _ h => queueCorrect_iff h) hs

def sigUsr1 : Nat := 16

def usr1Parent : Process :=
  { initProcess.setSignal sigUsr1 ⟨0x1000,0,0⟩ with blockedSignals := shiftSignal sigUsr1 }

def usr1Args : Args where
  signum := 0
  how := 2
  handler := 0
  act := .null
  oldact := .null
  set := .valid (shiftSignal sigUsr1)
  oset := .null
  sig := .valid ()

def queuedAndAwaited : List Event :=
  [.send ⟨2,0,0,0⟩ sigUsr1 false (some ⟨0,siQueue,7,0,0⟩), .syscall ⟨77,usr1Args⟩,
    .run true, .run true]

def unblockedAndKilled : List Event :=
  [.run true, .syscall ⟨75,usr1Args⟩, .run true, .run true,
    .send ⟨2,0,0,0⟩ sigUsr1 false none, .interrupt ⟨0,usr1Args⟩, .run true]

/-- The entry is queued without its bit, and the later signal gets it a second time. -/
theorem sigwait_leaves_entry :
    let start := Ledger.start usr1Parent ⟨0,usr1Args⟩ []
    let waited := queuedAndAwaited.foldl stepLedger start
    let delivered := unblockedAndKilled.foldl stepLedger waited
    waited.task.proc.sigQueue = [⟨sigUsr1,siQueue,7,0,0⟩] ∧
      hasSignal waited.task.proc.pendingSignals sigUsr1 = false ∧
      delivered.accepted = [⟨sigUsr1,siQueue,7,0,0⟩] ∧
      delivered.consumed = [⟨sigUsr1,siQueue,7,0,0⟩, ⟨sigUsr1,siQueue,7,0,0⟩] ∧
      ¬Along stepLedger QueueCorrect start (queuedAndAwaited ++ unblockedAndKilled) := by
  refine ⟨by decide,by decide,by decide,by decide,fun h => ?_⟩
  obtain ⟨-,-,-,hl,-⟩ := ((Along.append _ _).1 h).1
  exact absurd (hl.2.pending ⟨sigUsr1,siQueue,7,0,0⟩ (by decide)) (by decide)
end RazionOS.Kernel.Sys.Signal
