import RazionOS.Kernel.Sys.SignalQueue

/-!
# The mask after sigsuspend

`sys_sigsuspend` saves the mask in `restored_signals` and waits with a temporary one. A signal
that is ignored restarts the call, and the restarted call saves the temporary mask.
-/

namespace RazionOS.Kernel.Sys.Signal
open Framework List

def numSigaction : Int := 73
def numSigprocmask : Int := 75
def numSigsuspend : Int := 76

/-- `handle_signal` ignores the signal, by its handler or by default. -/
def Process.ignores (p : Process) (signal : Nat) : Bool :=
  (p.signals signal).handler == 1 || ((p.signals signal).handler == 0 &&
    (sigDefaults signal == .ign || sigDefaults signal == .cont))

/-- What happens during the call. The handlers that it runs may change handlers and masks, may
be interrupted, and return to the context that they were entered with. -/
inductive CallEvent where
  | arrives (sender : Sender) (signal : Int) (forceRoot : Bool) (cause : Option Siginfo)
  | handlerCalls (regs : Regs)
  | handlerInterrupted (regs : Regs)
  | handlerReturns
  | run (stackOk : Bool)

def callStep (base : List SignalFrame) (t : Task) : CallEvent → Task
  | .arrives sender signal forceRoot cause => step t (.send sender signal forceRoot cause)
  | .handlerCalls regs =>
    if base.length<t.frames.length ∧ (regs.number=numSigaction ∨ regs.number=numSigprocmask)
    then step t (.syscall regs) else t
  | .handlerInterrupted regs =>
    if base.length<t.frames.length then step t (.interrupt regs) else t
  | .handlerReturns =>
    if base.length<t.frames.length then step t (.sigreturn t.frames.head?) else t
  | .run stackOk => step t (.run stackOk)

structure Returned (base : List SignalFrame) (t : Task) : Prop where
  user : t.kernel=[]
  frames : t.frames=base
  live : t.proc.finished=false

/-- The step acts on a signal that is ignored, with the registers at the interrupted call. -/
def Restarts (t : Task) : CallEvent → Prop
  | .run stackOk => t.proc.interruptedSystemCall≠0 ∧ t.regs.number = -eRestartSigsuspend ∧
      ∃ signal, delivers t (.run stackOk)=some signal ∧ t.proc.ignores signal
  | _ => False

variable {t : Task}

def InRange (p : Process) : Prop :=
  ∀ n, hasSignal p.pendingSignals n → 0<n ∧ n<numSignals

theorem InRange.mono (h : InRange p)
    (hle : ∀ n, hasSignal p'.pendingSignals n → hasSignal p.pendingSignals n) : InRange p' :=
  fun n hn => h n (hle n hn)

private theorem InRange.kept (h : InRange p) (heq : p'.pendingSignals=p.pendingSignals) :
    InRange p' := h.mono fun _ hn => heq ▸ hn

theorem step_inRange (h : InRange t.proc) : InRange (step t e).proc := by
  cases e with
  | send sender signal forceRoot cause =>
    obtain ⟨_,_,hr | ⟨n,hpos,hlt,-,hr⟩⟩ := sendSignalInfo_cases t.proc sender signal forceRoot cause
    · exact h.kept (by rw [step,hr])
    intro m hm
    simp only [step,hr,hasSignal_or,Bool.or_eq_true] at hm
    obtain hm | hm := hm
    · exact h m hm
    · rw [hasSignal_shiftSignal (Nat.lt_trans hlt (by decide)),decide_eq_true_eq] at hm
      exact hm ▸ ⟨hpos,hlt⟩
  | run stackOk =>
    cases hd : delivers t (.run stackOk) with
    | some signal =>
      obtain ⟨hs,hk⟩ := run_delivers hd
      refine h.mono fun n hn => ?_
      rw [hk.pending,hasSignal_takeSignal hs,Bool.and_eq_true] at hn
      exact hn.1
    | none =>
      cases hw : sigwaits t (.run stackOk) with
      | some signal =>
        obtain ⟨hs,-,hp⟩ := run_sigwaits hw
        refine h.mono fun n hn => ?_
        rw [hp,hasSignal_clear hs,Bool.and_eq_true] at hn
        exact hn.1
      | none => exact h.kept (run_queueKept hd hw).pending
  | _ => exact h.kept (step_queueKept (by simp) (by simp)).pending

theorem Reachable.inRange (h : Reachable t) : InRange t.proc := by
  induction h with
  | init regs => exact fun n hn => by simp [initProcess,hasSignal] at hn
  | fork _ _ _ => exact fun n hn => by simp [Process.fork,initProcess,hasSignal] at hn
  | exec _ _ regs ih => exact ih
  | step e _ ih => exact step_inRange ih

theorem exists_hasSignal {set : Sigset} (h : set≠0) : ∃ n, hasSignal set n := by
  by_contra hn
  refine h (BitVec.eq_of_getLsbD_eq fun i _ => ?_)
  have hi : hasSignal set i=false := by simpa using fun hi => hn ⟨i,hi⟩
  simpa [hasSignal] using hi

theorem InRange.nextSignal (h : InRange p) (hp : p.pending≠0) :
    ∃ n, nextSignal numSignals p.pending 0=some n := by
  obtain ⟨n,hn⟩ := exists_hasSignal hp
  have hb := hn
  rw [hasSignal_pending (lt_of_hasSignal hn),Bool.and_eq_true] at hb
  obtain ⟨m,-,hm⟩ := nextSignal_le 0 (h n hb.1).2 hn
  exact ⟨_,hm⟩

/-- A process is woken for a signal exactly if the next round finds one to act on. -/
theorem pending_iff_found (h : Reachable t) :
    t.proc.pending ≠ 0 ↔ ∃ n, nextSignal numSignals t.proc.pending 0 = some n := by
  refine ⟨h.inRange.nextSignal,fun ⟨n,hn⟩ => ?_⟩
  obtain ⟨m,-,-,hm,-⟩ := nextSignal_eq_some hn
  exact ne_zero_of_hasSignal hm

theorem pending_iff_found_forked : ∃ t, Reachable t ∧ t.proc.pending ≠ 0 ∧
    ∃ n, nextSignal numSignals t.proc.pending 0 = some n := by
  have h := (Reachable.init ⟨0,usr1Args⟩).run [.syscall ⟨0,usr1Args⟩, .run true]
  have hsent := (h.fork rfl).step (.send ⟨2,0,0,0⟩ sigUsr1 false none)
  exact ⟨_,hsent,by decide,(pending_iff_found hsent).1 (by decide)⟩

/-- The kernel goes on with `k`, and nothing that the masks depend on has changed. -/
structure Continues (t t' : Task) (k : List Activation) : Prop where
  blocked : t'.proc.blockedSignals=t.proc.blockedSignals
  restored : t'.proc.restoredSignals=t.proc.restoredSignals
  restore : t'.proc.restoreSigmask=t.proc.restoreSigmask
  interrupted : t'.proc.interruptedSystemCall=t.proc.interruptedSystemCall
  finished : t'.proc.finished=t.proc.finished
  regs : t'.regs=t.regs
  frames : t'.frames=t.frames
  kernel : t'.kernel=k

structure Entered (t t' : Task) (signal : Nat) : Prop where
  restored : t'.proc.restoredSignals=t.proc.restoredSignals
  restore : t'.proc.restoreSigmask=t.proc.restoreSigmask
  interrupted : t'.proc.interruptedSystemCall=0
  finished : t'.proc.finished=t.proc.finished
  frames : t'.frames = ⟨t.regs,t.proc.interruptedSystemCall,signal,t.proc.blockedSignals⟩::t.frames
  kernel : t'.kernel=[]

structure Dead (t : Task) : Prop where
  finished : t.proc.finished=true
  kernel : t.kernel=[]

private theorem causeOf_signo : (causeOf signal (takeSignal p signal).2).signo=signal := by
  rw [takeSignal_found]
  cases hi : ofSignal signal p.sigQueue with
  | nil => rfl
  | cons info infos =>
    have hmem : info∈ofSignal signal p.sigQueue := by simp [hi]
    exact (mem_ofSignal.1 hmem).2

private theorem handleSignal_ignores (hlive : t.proc.finished=false) (hpos : 0 < signal)
    (hlt : signal<numSignals) (h : t.proc.ignores signal) (cause : Siginfo) (stackOk : Bool) :
    t.handleSignal k signal cause stackOk =
      t.resume (.maybeRestartSystemCall signal true :: .signalIgnored::k) t.proc := by
  simp only [Process.ignores,Bool.or_eq_true,Bool.and_eq_true,beq_iff_eq] at h
  simp only [Task.handleSignal]
  rw [if_neg (by simp [hlive]),if_neg (by omega)]
  obtain h | ⟨hz,h | h⟩ := h
  · rw [if_neg (by simp [h]),if_pos h]
  · rw [if_pos hz,h]
  · rw [if_pos hz,h]

private theorem archEnterSignalHandler_outcomes (hc : cause.signo=signal) :
    let t' := t.archEnterSignalHandler { t.proc with signals := signals } config cause stackOk
    Dead t' ∨ Entered t t' signal := by
  cases stackOk with
  | false => exact .inl ⟨rfl,rfl⟩
  | true => exact .inr ⟨rfl,rfl,rfl,rfl,hc ▸ rfl,rfl⟩

private theorem handleSignal_acts (hlive : t.proc.finished=false) (hpos : 0 < signal)
    (hlt : signal<numSignals) (h : t.proc.ignores signal=false) (hc : cause.signo=signal) :
    let t' := t.handleSignal k signal cause stackOk
    Dead t' ∨ Continues t t' (.stopped::k) ∨ Entered t t' signal := by
  simp only [Process.ignores,Bool.or_eq_false_iff,Bool.and_eq_false_imp,beq_iff_eq,
    beq_eq_false_iff_ne] at h
  simp only [Task.handleSignal]
  rw [if_neg (by simp [hlive]),if_neg (by omega)]
  by_cases hz : (t.proc.signals signal).handler=0
  · obtain ⟨hi,hco⟩ := h.2 hz
    rw [if_pos hz]
    cases hd : sigDefaults signal with
    | term | core => exact .inl ⟨rfl,rfl⟩
    | stop => exact .inr (.inl ⟨rfl,rfl,rfl,rfl,rfl,rfl,rfl,rfl⟩)
    | cont => exact absurd hd hco
    | ign => exact absurd hd hi
  · rw [if_neg hz,if_neg h.1]
    have ha : ∀ proc, (∃ signals, proc = { t.proc with signals := signals }) →
        let t' := t.archEnterSignalHandler proc (t.proc.signals signal) cause stackOk
        Dead t' ∨ Continues t t' (.stopped::k) ∨ Entered t t' signal := by
      rintro _ ⟨signals,rfl⟩
      exact (archEnterSignalHandler_outcomes hc).imp_right .inr
    refine ha _ ?_
    split <;> exact ⟨_,rfl⟩

theorem processCheckSignals_outcomes (hlive : t.proc.finished=false) (hr : InRange t.proc)
    (hk : t.kernel = .processCheckSignals::k) :
    let t' := step t (.run stackOk)
    (nextSignal numSignals t.proc.pending 0=none ∧ Continues t t' k) ∨
    ∃ signal<numSignals, delivers t (.run stackOk)=some signal ∧ ((t.proc.ignores signal ∧
          Continues t t' (.maybeRestartSystemCall signal true :: .signalIgnored::k)) ∨
        (t.proc.ignores signal=false ∧
          (Dead t' ∨ Continues t t' (.stopped::k) ∨ Entered t t' signal))) := by
  have hs : step t (.run stackOk)=t.processCheckSignals k stackOk := by
    simp [step,Task.runKernel,hk]
  rw [hs]
  obtain ⟨heq,he⟩ | ⟨signal,-,hn,heq⟩ := t.processCheckSignals_cases k stackOk
  · rw [heq]
    exact .inl ⟨he.resolve_left (by simp [hlive]),⟨rfl,rfl,rfl,rfl,rfl,rfl,rfl,rfl⟩⟩
  have hd : delivers t (.run stackOk)=some signal := by
    simp [delivers,hk,hlive,hn]
  obtain ⟨m,-,hm,hb,-⟩ := nextSignal_eq_some hn
  obtain rfl : signal=m := by omega
  rw [hasSignal_pending (lt_of_hasSignal hb),Bool.and_eq_true] at hb
  obtain ⟨hpos,hlt⟩ := hr signal hb.1
  refine .inr ⟨signal,hlt,hd,?_⟩
  rw [heq]
  -- taking the signal changes what is pending, not how it is handled
  cases hi : t.proc.ignores signal with
  | true =>
    have hig := handleSignal_ignores (t := t.resume k (takeSignal t.proc signal).1) (k := k)
      hlive hpos hlt hi (causeOf signal (takeSignal t.proc signal).2) stackOk
    rw [hig]
    exact .inl ⟨rfl,⟨rfl,rfl,rfl,rfl,rfl,rfl,rfl,rfl⟩⟩
  | false =>
    refine .inr ⟨rfl,?_⟩
    obtain h | h | h := handleSignal_acts (t := t.resume k (takeSignal t.proc signal).1)
      hlive hpos hlt hi causeOf_signo
    · exact .inl h
    · exact .inr (.inl ⟨h.1,h.2,h.3,h.4,h.5,h.6,h.7,h.8⟩)
    · exact .inr (.inr ⟨h.1,h.2,h.3,h.4,h.5,h.6⟩)

structure Call where
  base : List SignalFrame
  args : Args
  original : Sigset
  temporary : Sigset

variable (c : Call)

def Call.interruptedRegs : Regs := ⟨-eRestartSigsuspend,c.args⟩

def Call.frame (signal : Nat) : SignalFrame :=
  ⟨c.interruptedRegs,numSigsuspend,signal,c.temporary⟩

/-- The mask after the call, which is `lost` if the call was restarted. -/
def Call.final (lost : Bool) : Sigset := if lost then c.temporary else c.original

def Call.Saved (lost : Bool) (p : Process) : Prop :=
  if lost then p.restoreSigmask=false
  else p.restoreSigmask=true ∧ p.restoredSignals=c.original

structure AtResult (t : Task) : Prop where
  regs : t.regs=c.interruptedRegs
  interrupted : t.proc.interruptedSystemCall=numSigsuspend
  blocked : t.proc.blockedSignals=c.temporary
  frames : t.frames=c.base

/-- The call is made or restarted, and the temporary mask is set. -/
structure AtWait (t : Task) : Prop where
  regs : t.regs=⟨numSigsuspend,c.args⟩
  blocked : t.proc.blockedSignals=c.temporary
  frames : t.frames=c.base

/-- Nothing after a system call, and the end of `return_from_signal_handler` after a handler. -/
def Tail (k : List Activation) : Prop :=
  k=[] ∨ ∃ signal : Nat, signal<numSignals ∧
    k=[.maybeRestartSystemCall signal false, .processCheckSignals]

def Activation.Quiet : Activation → Prop
  | .maybeRestartSystemCall _ _ | .signalIgnored | .stopped | .processCheckSignals => True
  | _ => False

/-- No call is interrupted, and the kernel only acts on signals or on a call of a handler. -/
structure Quiet (inHandler : Prop) (t : Task) : Prop where
  interrupted : t.proc.interruptedSystemCall=0
  kernel : (∀ a∈t.kernel, a.Quiet) ∨ (inHandler ∧ t.kernel=[.syscallHandler, .processCheckSignals] ∧
      (t.regs.number=numSigaction ∨ t.regs.number=numSigprocmask))

/-- The mask that is left when the handlers above have returned. -/
def outerMask (frames : List SignalFrame) (blocked : Sigset) : Sigset :=
  (frames.getLast?.map SignalFrame.blockedSignals).getD blocked

theorem outerMask_of_ne_nil (h : frames≠[]) :
    outerMask frames blocked=outerMask frames blocked' := by
  simp [outerMask,getLast?_eq_some_getLast h]

theorem outerMask_cons : outerMask (f::frames) blocked=outerMask frames f.blockedSignals := by
  cases frames with
  | nil => rfl
  | cons f' frames =>
    rw [outerMask,getLast?_cons_cons]
    exact outerMask_of_ne_nil (cons_ne_nil f' frames)

inductive Phase : Bool → Task → Prop where
  | calling {t : Task} (hregs : t.regs=⟨numSigsuspend,c.args⟩)
      (hblocked : t.proc.blockedSignals=c.original) (hfrms : t.frames=c.base)
      (hker : t.kernel=[.syscallHandler, .processCheckSignals]) : Phase false t
  | waiting {t : Task} (h : AtWait c t) (hrstd : t.proc.restoredSignals=c.original)
      (hker : t.kernel=[.signalWait, .processCheckSignals]) : Phase false t
  | checking {t : Task} (h : AtResult c t) (hk : Tail k)
      (hsaved : c.Saved lost t.proc) (hpend : k=[] → t.proc.pending≠0)
      (hker : t.kernel = .processCheckSignals::k) : Phase lost t
  | stopped {t : Task} (h : AtResult c t) (hk : Tail k)
      (hsaved : c.Saved lost t.proc) (hker : t.kernel = .stopped::k) : Phase lost t
  | ignoring {t : Task} (h : AtResult c t) (hk : Tail k)
      (hsig : signal<numSignals)
      (hker : t.kernel = .maybeRestartSystemCall signal true :: .signalIgnored::k) :
      Phase true t
  | restarting {t : Task} (h : AtWait c t) (hk : Tail k)
      (hker : t.kernel = .syscallHandler :: .restoreSigmask :: .signalIgnored::k) :
      Phase true t
  | rewaiting {t : Task} (h : AtWait c t) (hk : Tail k)
      (hrstd : t.proc.restoredSignals=c.temporary)
      (hker : t.kernel = .signalWait :: .restoreSigmask :: .signalIgnored::k) : Phase true t
  | restoring {t : Task} (h : AtResult c t) (hk : Tail k)
      (hrstd : t.proc.restoredSignals=c.temporary) (hrst : t.proc.restoreSigmask=true)
      (hpend : t.proc.pending≠0)
      (hker : t.kernel = .restoreSigmask :: .signalIgnored::k) : Phase true t
  | resuming {t : Task} (h : AtResult c t) (hk : Tail k)
      (hrst : t.proc.restoreSigmask=false) (hpend : t.proc.pending≠0)
      (hker : t.kernel = .signalIgnored::k) : Phase true t
  | returning {t : Task} (h : AtResult c t)
      (hsig : signal<numSignals) (hsaved : c.Saved lost t.proc)
      (hker : t.kernel=[.maybeRestartSystemCall signal false, .processCheckSignals]) :
      Phase lost t
  | leaving {t : Task} (hintr : t.proc.interruptedSystemCall=0)
      (hblocked : t.proc.blockedSignals=c.temporary) (hfrms : t.frames=c.base)
      (hsaved : c.Saved lost t.proc)
      (hker : t.kernel=[.restoreSigmask, .processCheckSignals]) : Phase lost t
  | handling {t : Task} (frames : List SignalFrame)
      (hfrms : t.frames=frames++c.frame signal::c.base) (hsig : signal<numSignals)
      (habove : ∀ f∈frames, f.interruptedSystemCall=0) (hsaved : c.Saved lost t.proc)
      (hquiet : Quiet True t) : Phase lost t
  | left {t : Task} (frames : List SignalFrame)
      (hfrms : t.frames=frames++c.base)
      (habove : ∀ f∈frames, f.interruptedSystemCall=0)
      (hmask : outerMask frames t.proc.blockedSignals=c.final lost)
      (hquiet : Quiet (frames≠[]) t) : Phase lost t

def InPhase (lost : Bool) (t : Task) : Prop :=
  Dead t ∨ t.proc.finished=false ∧ Phase c lost t

variable {c}

theorem Continues.atResult (hc : Continues t t' k) (h : AtResult c t) : AtResult c t' :=
  ⟨hc.regs.trans h.regs,hc.interrupted.trans h.interrupted,hc.blocked.trans h.blocked,
    hc.frames.trans h.frames⟩

private theorem Continues.atWait (hc : Continues t t' k) (h : AtWait c t) : AtWait c t' :=
  ⟨hc.regs.trans h.regs,hc.blocked.trans h.blocked,hc.frames.trans h.frames⟩

theorem Continues.saved (hc : Continues t t' k) (h : c.Saved lost t.proc) :
    c.Saved lost t'.proc := by
  simpa [Call.Saved,hc.restore,hc.restored] using h

private theorem Phase.continues (h : Phase c lost t) (hc : Continues t t' t.kernel)
    (hm : t.proc.pending≠0 → t'.proc.pending≠0) : Phase c lost t' := by
  have hke' := hc.kernel
  cases h with
  | calling hre hb hf hke =>
    exact .calling (hc.regs.trans hre) (hc.blocked.trans hb) (hc.frames.trans hf) (hke'.trans hke)
  | waiting h hr hke =>
    exact .waiting (hc.atWait h) (hc.restored.trans hr) (hke'.trans hke)
  | checking h hk hs hp hke =>
    exact .checking (hc.atResult h) hk (hc.saved hs) (fun hn => hm (hp hn)) (hke'.trans hke)
  | stopped h hk hs hke =>
    exact .stopped (hc.atResult h) hk (hc.saved hs) (hke'.trans hke)
  | ignoring h hk hsi hke =>
    exact .ignoring (hc.atResult h) hk hsi (hke'.trans hke)
  | restarting h hk hke => exact .restarting (hc.atWait h) hk (hke'.trans hke)
  | rewaiting h hk hr hke =>
    exact .rewaiting (hc.atWait h) hk (hc.restored.trans hr) (hke'.trans hke)
  | restoring h hk hr hrs hp hke =>
    exact .restoring (hc.atResult h) hk (hc.restored.trans hr) (hc.restore.trans hrs)
      (hm hp) (hke'.trans hke)
  | resuming h hk hrs hp hke =>
    exact .resuming (hc.atResult h) hk (hc.restore.trans hrs) (hm hp) (hke'.trans hke)
  | returning h hsi hs hke =>
    exact .returning (hc.atResult h) hsi (hc.saved hs) (hke'.trans hke)
  | leaving hi hb hf hs hke =>
    exact .leaving (hc.interrupted.trans hi) (hc.blocked.trans hb)
      (hc.frames.trans hf) (hc.saved hs) (hke'.trans hke)
  | handling frames hf hsi ha hs hq =>
    exact .handling frames (hc.frames.trans hf) hsi ha (hc.saved hs)
      ⟨hc.interrupted.trans hq.interrupted,by rw [hke',hc.regs]; exact hq.kernel⟩
  | left frames hf ha hma hq =>
    exact .left frames (hc.frames.trans hf) ha (by rw [hc.blocked,hma])
      ⟨hc.interrupted.trans hq.interrupted,by rw [hke',hc.regs]; exact hq.kernel⟩

theorem send_continues :
    let t' := step t (.send sender signal forceRoot cause)
    Continues t t' t.kernel ∧ (t.proc.pending≠0 → t'.proc.pending≠0) := by
  obtain ⟨_,_,hr | ⟨n,-,-,-,hr⟩⟩ := sendSignalInfo_cases t.proc sender signal forceRoot cause
  · simp only [step,hr]
    exact ⟨⟨rfl,rfl,rfl,rfl,rfl,rfl,rfl,rfl⟩,id⟩
  simp only [step,hr]
  refine ⟨⟨rfl,rfl,rfl,rfl,rfl,rfl,rfl,rfl⟩,fun hp => ?_⟩
  obtain ⟨m,hm⟩ := exists_hasSignal hp
  refine ne_zero_of_hasSignal (n := m) ?_
  simp only [Process.pending,hasSignal_and,hasSignal_or,Bool.and_eq_true,Bool.or_eq_true] at hm ⊢
  exact ⟨.inl hm.1,hm.2⟩

/-- While no call is interrupted, acting on signals only changes masks by entering handlers. -/
structure Unchanged (inHandler : Prop) (t t' : Task) : Prop where
  frames : t'.frames=t.frames
  restored : t'.proc.restoredSignals=t.proc.restoredSignals
  restore : t'.proc.restoreSigmask=t.proc.restoreSigmask
  finished : t'.proc.finished=t.proc.finished
  blocked : t'.proc.blockedSignals=t.proc.blockedSignals ∨ inHandler
  quiet : Quiet inHandler t'

private theorem Unchanged.saved (hu : Unchanged inHandler t t') (h : c.Saved lost t.proc) :
    c.Saved lost t'.proc := by
  simpa [Call.Saved,hu.restore,hu.restored] using h

private theorem Continues.unchanged (hc : Continues t t' k)
    (hi : t.proc.interruptedSystemCall=0) (hk : ∀ a∈k, a.Quiet) : Unchanged inHandler t t' :=
  ⟨hc.frames,hc.restored,hc.restore,hc.finished,.inl hc.blocked,
    hc.interrupted.trans hi,.inl (by rw [hc.kernel]; exact hk)⟩

/-- What `sys_sigaction` and `sys_sigprocmask` may change, and their results. -/
structure PlainCall (p p' : Process) (result : Int) : Prop where
  restored : p'.restoredSignals=p.restoredSignals
  restore : p'.restoreSigmask=p.restoreSigmask
  interrupted : p'.interruptedSystemCall=p.interruptedSystemCall
  finished : p'.finished=p.finished
  result : result=0 ∨ result = -eFault ∨ result = -eInval

private theorem PlainCall.not_restart {result : Int} (h : PlainCall p p' result) :
    ¬(result = -eRestartSys ∨ result = -eRestartSigsuspend) := by
  obtain rfl | rfl | rfl := h.result <;> decide

private theorem sysSigaction_plain :
    PlainCall p (sysSigaction p signum act oldact).1 (sysSigaction p signum act oldact).2.1 := by
  unfold sysSigaction
  split
  · exact ⟨rfl,rfl,rfl,rfl,.inr (.inl rfl)⟩
  split
  · exact ⟨rfl,rfl,rfl,rfl,.inr (.inr rfl)⟩
  · cases act.read? <;> exact ⟨rfl,rfl,rfl,rfl,.inl rfl⟩

private theorem sysSigprocmask_plain (how : Int) (set : UserPtr Sigset) :
    PlainCall p (sysSigprocmask p how set oset).1 (sysSigprocmask p how set oset).2.1 := by
  unfold sysSigprocmask
  split
  · exact ⟨rfl,rfl,rfl,rfl,.inr (.inl rfl)⟩
  cases set with
  | null => exact ⟨rfl,rfl,rfl,rfl,.inl rfl⟩
  | invalid => exact ⟨rfl,rfl,rfl,rfl,.inr (.inl rfl)⟩
  | valid set =>
    simp only
    cases setmask how p.blockedSignals set with
    | none => exact ⟨rfl,rfl,rfl,rfl,.inr (.inr rfl)⟩
    | some blocked => exact ⟨rfl,rfl,rfl,rfl,.inl rfl⟩

private theorem syscallHandler_plain
    (hn : t.regs.number=numSigaction ∨ t.regs.number=numSigprocmask) :
    ∃ p result, t.syscallHandler k=t.finishSyscall k p result ∧ PlainCall t.proc p result := by
  unfold Task.syscallHandler
  obtain hn | hn := hn
  · rw [hn]
    exact ⟨_,_,rfl,sysSigaction_plain⟩
  · rw [hn]
    exact ⟨_,_,rfl,sysSigprocmask_plain _ _⟩

private theorem handlerCall_run (hin : inHandler) (hi : t.proc.interruptedSystemCall=0)
    (hk : t.kernel=[.syscallHandler, .processCheckSignals])
    (hn : t.regs.number=numSigaction ∨ t.regs.number=numSigprocmask) :
    Unchanged inHandler t (step t (.run stackOk)) := by
  simp only [step,Task.runKernel,hk]
  obtain ⟨p,result,heq,hp⟩ := syscallHandler_plain hn
  rw [heq]
  refine ⟨rfl,hp.restored,hp.restore,hp.finished,.inr hin,?_,.inl ?_⟩
  · simp only [Task.finishSyscall,if_neg hp.not_restart]
    exact hp.interrupted.trans hi
  · simp [Task.finishSyscall,Task.setNumber,Task.resume,Activation.Quiet]

theorem quiet_run (hlive : t.proc.finished=false) (hr : InRange t.proc)
    (hq : Quiet inHandler t) : let t' := step t (.run stackOk)
    Dead t' ∨ Unchanged inHandler t t' ∨ ∃ signal<numSignals, Entered t t' signal := by
  obtain ⟨hi,hq | ⟨hin,hke,hn⟩⟩ := hq
  · cases hke : t.kernel with
    | nil =>
      refine .inr (.inl (Continues.unchanged (k := []) ?_ hi (by simp)))
      simp only [step,Task.runKernel,hke]
      exact ⟨rfl,rfl,rfl,rfl,rfl,rfl,rfl,hke⟩
    | cons a k =>
      rw [hke] at hq
      obtain ⟨ha,hk⟩ := forall_mem_cons.1 hq
      have hch : ∀ b∈Activation.processCheckSignals::k, b.Quiet := forall_mem_cons.2 ⟨trivial,hk⟩
      cases a with
      | maybeRestartSystemCall signum noHandler =>
        refine .inr (.inl (Continues.unchanged ?_ hi hk))
        simp only [step,Task.runKernel,hke,Task.maybeRestartSystemCall,hi,ne_eq,not_true_eq_false,
          false_and,if_false,ite_self]
        exact ⟨rfl,rfl,rfl,rfl,rfl,rfl,rfl,rfl⟩
      | signalIgnored | stopped =>
        simp only [step,Task.runKernel,hke,Task.checkAgain]
        split
        · exact .inr (.inl (Continues.unchanged ⟨rfl,rfl,rfl,rfl,rfl,rfl,rfl,rfl⟩ hi ‹_›))
        · exact .inr (.inl (Continues.unchanged ⟨rfl,rfl,rfl,rfl,rfl,rfl,rfl,rfl⟩ hi hch))
      | processCheckSignals =>
        obtain ⟨-,hc⟩ | ⟨signal,hlt,-,⟨-,hc⟩ | ⟨-,hd | hc | he⟩⟩ :=
          processCheckSignals_outcomes hlive hr hke
        · exact .inr (.inl (hc.unchanged hi hk))
        · exact .inr (.inl (hc.unchanged hi (by
            simpa [Activation.Quiet] using hk)))
        · exact .inl hd
        · exact .inr (.inl (hc.unchanged hi (by
            simpa [Activation.Quiet] using hk)))
        · exact .inr (.inr ⟨signal,hlt,he⟩)
      | _ => exact ha.elim
  · exact .inr (.inl (handlerCall_run hin hi hke hn))

private theorem syscallHandler_sigsuspend {set : Sigset} (hr : t.regs=⟨numSigsuspend,args⟩)
    (hs : args.set = .valid set) :
    t.syscallHandler k=t.resume (.signalWait::k) (sysSigsuspend t.proc set) := by
  have hn : t.regs.number=numSigsuspend := by rw [hr]
  have ha : t.regs.args=args := by rw [hr]
  unfold Task.syscallHandler
  rw [hn,if_neg (by decide)]
  simp [show syscalls numSigsuspend = .sigsuspend by decide,ha,hs,UserPtr.read?]

private theorem AtWait.signalWait (h : AtWait c t) (hp : t.proc.pending≠0) :
    AtResult c (t.signalWait k) ∧ (t.signalWait k).kernel=k ∧
      (t.signalWait k).proc.restoreSigmask=true ∧
      (t.signalWait k).proc.restoredSignals=t.proc.restoredSignals ∧
      (t.signalWait k).proc.finished=t.proc.finished ∧
      (t.signalWait k).proc.pending=t.proc.pending := by
  rw [Task.signalWait,if_neg hp]
  refine ⟨⟨?_,?_,h.blocked,h.frames⟩,rfl,rfl,rfl,rfl,rfl⟩
  · simp [Task.finishSyscall,Task.setNumber,Task.resume,h.regs,Call.interruptedRegs]
  · simp [Task.finishSyscall,Task.setNumber,Task.resume,h.regs]

private theorem AtResult.maybeRestart (h : AtResult c t) (hs : signal<numSignals) :
    let proc := { t.proc with interruptedSystemCall := 0 }
    t.maybeRestartSystemCall k signal noHandler=if noHandler then
      (t.resume (.syscallHandler :: .restoreSigmask::k) proc).setNumber numSigsuspend
    else (t.resume (.restoreSigmask::k) proc).setNumber (-eIntr) := by
  have hn : t.regs.number = -eRestartSigsuspend := by
    rw [h.regs]
    rfl
  simp only [Task.maybeRestartSystemCall,h.interrupted,hn]
  rw [if_neg (by omega),if_neg (by decide),if_pos (by decide)]

section Steps
variable (hlive : t.proc.finished = false) (stackOk : Bool)
include hlive

private theorem checking_run (hr : InRange t.proc) (h : AtResult c t) (hk : Tail k)
    (hs : c.Saved lost t.proc) (hp : k=[] → t.proc.pending≠0)
    (hke : t.kernel = .processCheckSignals::k) :
    (Restarts t (.run stackOk) ∧ InPhase c true (step t (.run stackOk))) ∨
      (¬Restarts t (.run stackOk) ∧ InPhase c lost (step t (.run stackOk))) := by
  obtain ⟨hno,hc⟩ | ⟨signal,hlt,hde,⟨hi,hc⟩ | ⟨hi,ha⟩⟩ := processCheckSignals_outcomes hlive hr hke
  · obtain rfl | ⟨signal,hlt,rfl⟩ := hk
    · obtain ⟨n,hn⟩ := hr.nextSignal (hp rfl)
      simp [hno] at hn
    · refine .inr ⟨?_,.inr ⟨hc.finished.trans hlive,
        .returning (hc.atResult h) hlt (hc.saved hs) hc.kernel⟩⟩
      rintro ⟨-,-,n,hn,-⟩
      simp [delivers,hke,hno] at hn
  · refine .inl ⟨⟨?_,?_,signal,hde,hi⟩,.inr ⟨hc.finished.trans hlive,
      .ignoring (hc.atResult h) hk hlt hc.kernel⟩⟩
    · rw [h.interrupted]
      decide
    · rw [h.regs]
      rfl
  · refine .inr ⟨?_,?_⟩
    · rintro ⟨-,-,n,hn,hn'⟩
      obtain rfl : signal=n := Option.some.inj (hde.symm.trans hn)
      simp [hi] at hn'
    · obtain hd | hc | he := ha
      · exact .inl hd
      · exact .inr ⟨hc.finished.trans hlive,.stopped (hc.atResult h) hk (hc.saved hs) hc.kernel⟩
      · refine .inr ⟨he.finished.trans hlive,.handling [] ?_ hlt (by simp) ?_ ?_⟩
        · rw [he.frames,h.regs,h.interrupted,h.blocked,h.frames]
          rfl
        · simpa [Call.Saved,he.restore,he.restored] using hs
        · exact ⟨he.interrupted,.inl (by simp [he.kernel])⟩

private theorem handling_run (hr : InRange t.proc) (hf : t.frames=frames++c.frame signal::c.base)
    (hsi : signal<numSignals) (ha : ∀ f∈frames, f.interruptedSystemCall=0)
    (hs : c.Saved lost t.proc) (hq : Quiet True t) : InPhase c lost (step t (.run stackOk)) := by
  obtain hd | hu | ⟨n,hn,he⟩ := quiet_run hlive hr hq
  · exact .inl hd
  · exact .inr ⟨hu.finished.trans hlive,.handling frames (hu.frames.trans hf) hsi ha
      (hu.saved hs) hu.quiet⟩
  refine .inr ⟨he.finished.trans hlive,.handling _ (by rw [he.frames,hf]; rfl) hsi
    (forall_mem_cons.2 ⟨hq.interrupted,ha⟩) ?_ ?_⟩
  · simpa [Call.Saved,he.restore,he.restored] using hs
  · exact ⟨he.interrupted,.inl (by simp [he.kernel])⟩

private theorem left_run (hr : InRange t.proc) (hf : t.frames=frames++c.base)
    (ha : ∀ f∈frames, f.interruptedSystemCall=0)
    (hm : outerMask frames t.proc.blockedSignals=c.final lost) (hq : Quiet (frames≠[]) t) :
    InPhase c lost (step t (.run stackOk)) := by
  obtain hd | hu | ⟨n,hn,he⟩ := quiet_run hlive hr hq
  · exact .inl hd
  · refine .inr ⟨hu.finished.trans hlive,.left frames (hu.frames.trans hf) ha ?_ hu.quiet⟩
    obtain hb | hne := hu.blocked
    · rw [hb,hm]
    · rw [← hm]
      exact outerMask_of_ne_nil hne
  · refine .inr ⟨he.finished.trans hlive,.left _
      (by rw [he.frames,hf]; rfl) (forall_mem_cons.2 ⟨hq.interrupted,ha⟩) ?_
      ⟨he.interrupted,.inl (by simp [he.kernel])⟩⟩
    rw [← hm]
    exact outerMask_cons
end Steps

private theorem not_restarts_of_zero (h : t.proc.interruptedSystemCall=0) : ¬Restarts t e := by
  cases e <;> simp [Restarts,h]

private theorem not_restarts_of_kernel (hk : t.kernel=a::k) (ha : a ≠ .processCheckSignals) :
    ¬Restarts t e := by
  cases e with
  | run stackOk =>
    rintro ⟨-,-,signal,hd,-⟩
    cases a <;> simp [delivers,hk] at hd ha
  | _ => exact id

/-- A step keeps the phase, and loses the mask if it restarts the call. -/
def CallStep (c : Call) (lost : Bool) (t : Task) (e : CallEvent) : Prop :=
  (Restarts t e ∧ InPhase c true (callStep c.base t e)) ∨
    (¬Restarts t e ∧ InPhase c lost (callStep c.base t e))

private theorem CallStep.of_kernel (hk : t.kernel=a::k) (h : InPhase c lost (t.runKernel stackOk))
    (ha : a ≠ .processCheckSignals := by simp) : CallStep c lost t (.run stackOk) :=
  .inr ⟨not_restarts_of_kernel hk ha,h⟩

theorem Dead.callStep (h : Dead t) (base : List SignalFrame) (e : CallEvent) :
    Dead (callStep base t e) := by
  cases e with
  | arrives sender signal forceRoot cause =>
    obtain ⟨hc,-⟩ := send_continues
    exact ⟨hc.finished.trans h.finished,hc.kernel.trans h.kernel⟩
  | run stackOk =>
    simp only [Signal.callStep,step,Task.runKernel,h.kernel]
    exact h
  | _ =>
    simp only [Signal.callStep]
    split
    · simpa [step,h.finished] using h
    · exact h

private theorem InPhase.run (hse : c.args.set = .valid c.temporary) (hrn : InRange t.proc)
    (h : InPhase c lost t) (stackOk : Bool) : CallStep c lost t (.run stackOk) := by
  obtain hd | ⟨hlive,hph⟩ := h
  · refine .inr ⟨?_,.inl (hd.callStep c.base _)⟩
    rintro ⟨-,-,signal,hde,-⟩
    simp [delivers,hd.kernel] at hde
  cases hph with
  | calling hre hb hf hke =>
    refine .of_kernel hke ?_
    simp only [Task.runKernel,hke]
    rw [syscallHandler_sigsuspend hre hse]
    exact .inr ⟨hlive,.waiting ⟨hre,rfl,hf⟩ hb rfl⟩
  | waiting h hr hke =>
    refine .of_kernel hke ?_
    simp only [Task.runKernel,hke]
    by_cases hp : t.proc.pending=0
    · rw [Task.signalWait,if_pos hp]
      exact .inr ⟨hlive,.waiting h hr hke⟩
    obtain ⟨hres,hk,hrs,hre,hf,hs⟩ := h.signalWait hp
    refine .inr ⟨hf.trans hlive,.checking hres (.inl rfl) ?_ (fun _ => ?_) hk⟩
    · exact ⟨hrs,hre.trans hr⟩
    · rwa [hs]
  | checking h hk hs hp hke => exact checking_run hlive stackOk hrn h hk hs hp hke
  | stopped h hk hs hke =>
    refine .of_kernel hke ?_
    simp only [Task.runKernel,hke,Task.checkAgain]
    split
    · exact .inr ⟨hlive,.stopped ⟨h.1,h.2,h.3,h.4⟩ hk hs rfl⟩
    · next hp => exact .inr ⟨hlive,.checking ⟨h.1,h.2,h.3,h.4⟩ hk hs (fun _ => hp) rfl⟩
  | ignoring h hk hsi hke =>
    refine .of_kernel hke ?_
    simp only [Task.runKernel,hke,h.maybeRestart hsi]
    refine .inr ⟨hlive,.restarting ⟨?_,h.blocked,h.frames⟩ hk rfl⟩
    simp [Task.setNumber,Task.resume,h.regs,Call.interruptedRegs]
  | restarting h hk hke =>
    refine .of_kernel hke ?_
    simp only [Task.runKernel,hke]
    rw [syscallHandler_sigsuspend h.regs hse]
    exact .inr ⟨hlive,.rewaiting ⟨h.regs,rfl,h.frames⟩ hk h.blocked rfl⟩
  | rewaiting h hk hr hke =>
    refine .of_kernel hke ?_
    simp only [Task.runKernel,hke]
    by_cases hp : t.proc.pending=0
    · rw [Task.signalWait,if_pos hp]
      exact .inr ⟨hlive,.rewaiting h hk hr hke⟩
    · obtain ⟨hres,hk',hrs,hre,hf,hs⟩ := h.signalWait hp
      exact .inr ⟨hf.trans hlive,.restoring hres hk (hre.trans hr) hrs (by rwa [hs]) hk'⟩
  | restoring h hk hr hrs hp hke =>
    refine .of_kernel hke ?_
    simp only [Task.runKernel,hke,Task.restoreSigmask,hrs]
    refine .inr ⟨hlive,.resuming ⟨h.regs,h.interrupted,hr,h.frames⟩ hk rfl ?_ rfl⟩
    -- the mask does not change, so the signal can still be acted on
    simpa [Task.resume,Process.pending,hr,← h.blocked] using hp
  | resuming h hk hrs hp hke =>
    refine .of_kernel hke ?_
    simp only [Task.runKernel,hke,Task.checkAgain]
    rw [if_neg hp]
    exact .inr ⟨hlive,.checking ⟨h.1,h.2,h.3,h.4⟩ hk hrs (fun _ => hp) rfl⟩
  | returning h hsi hs hke =>
    refine .of_kernel hke ?_
    simp only [Task.runKernel,hke,h.maybeRestart hsi]
    exact .inr ⟨hlive,.leaving rfl h.blocked h.frames hs rfl⟩
  | leaving hi hb hf hs hke =>
    refine .of_kernel hke ?_
    simp only [Task.runKernel,hke,Task.restoreSigmask]
    have hq : ∀ a∈[Activation.processCheckSignals], a.Quiet := by simp [Activation.Quiet]
    cases lost with
    | false =>
      rw [if_pos hs.1]
      exact .inr ⟨hlive,.left [] hf (by simp) hs.2 ⟨hi,.inl hq⟩⟩
    | true =>
      have hrs : t.proc.restoreSigmask=false := hs
      rw [if_neg (by simp [hrs])]
      exact .inr ⟨hlive,.left [] hf (by simp) hb ⟨hi,.inl hq⟩⟩
  | handling frames hf hsi ha hs hq =>
    exact .inr ⟨not_restarts_of_zero hq.interrupted,handling_run hlive stackOk hrn hf hsi ha hs hq⟩
  | left frames hf ha hm hq =>
    exact .inr ⟨not_restarts_of_zero hq.interrupted,left_run hlive stackOk hrn hf ha hm hq⟩

private theorem InPhase.arrives (h : InPhase c lost t) (sender : Sender) (signal : Int)
    (forceRoot : Bool) (cause : Option Siginfo) :
    InPhase c lost (callStep c.base t (.arrives sender signal forceRoot cause)) := by
  obtain hd | ⟨hlive,hp⟩ := h
  · exact .inl (hd.callStep c.base _)
  · obtain ⟨hc,hm⟩ := send_continues
    exact .inr ⟨hc.finished.trans hlive,hp.continues hc hm⟩

theorem Phase.user (h : Phase c lost t) (hk : t.kernel=[]) : t.proc.interruptedSystemCall=0 ∧
    ((∃ frames signal, t.frames=frames++c.frame signal::c.base ∧ signal<numSignals ∧
      (∀ f∈frames, f.interruptedSystemCall=0) ∧ c.Saved lost t.proc) ∨
    ∃ frames, t.frames=frames++c.base ∧ (∀ f∈frames, f.interruptedSystemCall=0) ∧
      outerMask frames t.proc.blockedSignals=c.final lost) := by
  cases h with
  | handling frames hf hsi ha hs hq =>
    exact ⟨hq.interrupted,.inl ⟨_,_,hf,hsi,ha,hs⟩⟩
  | left frames hf ha hm hq =>
    exact ⟨hq.interrupted,.inr ⟨_,hf,ha,hm⟩⟩
  | _ =>
    -- in every other phase the kernel has something left to do
    cases hk.symm.trans ‹t.kernel=_::_›

theorem Phase.enterKernel (h : Phase c lost t) (hke : t.kernel=[])
    (hb : c.base.length<t.frames.length)
    (hk : (∀ a∈k, a.Quiet) ∨ k=[.syscallHandler, .processCheckSignals] ∧
      (regs.number=numSigaction ∨ regs.number=numSigprocmask)) :
    Phase c lost { t with regs := regs, kernel := k } := by
  obtain ⟨hi,⟨frames,signal,hf,hsi,ha,hs⟩ | ⟨frames,hf,ha,hm⟩⟩ := h.user hke
  · exact .handling frames hf hsi ha hs ⟨hi,hk.imp_right fun hc => ⟨trivial,hc⟩⟩
  have hne : frames≠[] := by
    rintro rfl
    simp [hf] at hb
  exact .left frames hf ha hm ⟨hi,hk.imp_right fun hc => ⟨hne,hc⟩⟩

private theorem returnFromSignalHandler_quiet (hf : f.interruptedSystemCall=0) :
    Quiet inHandler (t.returnFromSignalHandler f) := by
  refine ⟨hf,.inl ?_⟩
  simp only [Task.returnFromSignalHandler]
  split <;> simp [Activation.Quiet]

private theorem returnFromSignalHandler_frame (hf : t.frames=c.frame signal::c.base)
    (hsi : signal<numSignals) (hs : c.Saved lost t.proc) :
    Phase c lost (t.returnFromSignalHandler (c.frame signal)) := by
  have hr : AtResult c (t.returnFromSignalHandler (c.frame signal)) :=
    ⟨rfl,rfl,rfl,by simp [Task.returnFromSignalHandler,hf]⟩
  by_cases hp :
      { t.proc with
        blockedSignals := (c.frame signal).blockedSignals
        interruptedSystemCall := (c.frame signal).interruptedSystemCall }.pending=0
  · refine .returning hr hsi hs ?_
    simp only [Task.returnFromSignalHandler,if_pos hp]
    rfl
  · refine .checking hr (.inr ⟨signal,hsi,rfl⟩) hs (by simp) ?_
    simp only [Task.returnFromSignalHandler,if_neg hp]
    rfl

private theorem Phase.sigreturn (h : Phase c lost t) (hk : t.kernel=[]) (hf : t.frames=f::rest)
    (hb : c.base.length<t.frames.length) : Phase c lost (t.returnFromSignalHandler f) := by
  have hr : (t.returnFromSignalHandler f).frames=rest := by
    simp [Task.returnFromSignalHandler,hf]
  obtain ⟨-,⟨frames,signal,hfr,hsi,ha,hs⟩ | ⟨frames,hfr,ha,hm⟩⟩ := h.user hk
  · cases frames with
    | nil =>
      obtain ⟨rfl,rfl⟩ := cons.inj (hf.symm.trans hfr)
      exact returnFromSignalHandler_frame hfr hsi hs
    | cons f' frames =>
      obtain ⟨rfl,rfl⟩ := cons.inj (hf.symm.trans hfr)
      obtain ⟨hz,ha⟩ := forall_mem_cons.1 ha
      exact .handling frames hr hsi ha hs (returnFromSignalHandler_quiet hz)
  · cases frames with
    | nil => simp [hfr] at hb
    | cons f' frames =>
      obtain ⟨rfl,rfl⟩ := cons.inj (hf.symm.trans hfr)
      obtain ⟨hz,ha⟩ := forall_mem_cons.1 ha
      exact .left frames hr ha (outerMask_cons.symm.trans hm) (returnFromSignalHandler_quiet hz)

theorem InPhase.ite {p : Prop} [Decidable p] (h : InPhase c lost t)
    (h' : p → InPhase c lost t') : InPhase c lost (if p then t' else t) := by
  split
  · exact h' ‹_›
  · exact h

private theorem InPhase.handlerCalls (h : InPhase c lost t) (regs : Regs) :
    InPhase c lost (callStep c.base t (.handlerCalls regs)) := by
  obtain hd | ⟨hlive,hp⟩ := id h
  · exact .inl (hd.callStep c.base _)
  · refine h.ite fun hc => h.ite fun hu => .inr ⟨hlive,?_⟩
    exact hp.enterKernel (isEmpty_iff.1 hu.1) hc.1 (.inr ⟨rfl,hc.2⟩)

private theorem InPhase.handlerInterrupted (h : InPhase c lost t) (regs : Regs) :
    InPhase c lost (callStep c.base t (.handlerInterrupted regs)) := by
  obtain hd | ⟨hlive,hp⟩ := id h
  · exact .inl (hd.callStep c.base _)
  · refine h.ite fun hb => h.ite fun hu => .inr ⟨hlive,?_⟩
    exact hp.enterKernel (isEmpty_iff.1 hu.1) hb (.inl (by simp [Activation.Quiet]))

private theorem InPhase.handlerReturns (h : InPhase c lost t) :
    InPhase c lost (callStep c.base t .handlerReturns) := by
  obtain hd | ⟨hlive,hp⟩ := id h
  · exact .inl (hd.callStep c.base _)
  refine h.ite fun hb => h.ite fun hu => ?_
  cases hf : t.frames with
  | nil => simp [hf] at hb
  | cons f rest =>
    exact .inr ⟨hlive,hp.sigreturn (isEmpty_iff.1 hu.1) hf hb⟩

private theorem InPhase.callStep (hs : c.args.set = .valid c.temporary) (hr : InRange t.proc)
    (h : InPhase c lost t) (e : CallEvent) : CallStep c lost t e := by
  cases e with
  | run stackOk => exact h.run hs hr stackOk
  | arrives sender signal forceRoot cause =>
    exact .inr ⟨id,h.arrives sender signal forceRoot cause⟩
  | handlerCalls regs => exact .inr ⟨id,h.handlerCalls regs⟩
  | handlerInterrupted regs => exact .inr ⟨id,h.handlerInterrupted regs⟩
  | handlerReturns => exact .inr ⟨id,h.handlerReturns⟩

private theorem callStep_inRange (h : InRange t.proc) (base : List SignalFrame) (e : CallEvent) :
    InRange (callStep base t e).proc := by
  cases e with
  | arrives sender signal forceRoot cause => exact step_inRange h
  | run stackOk => exact step_inRange h
  | _ =>
    simp only [callStep]
    split
    · exact step_inRange h
    · exact h

/-- The mask is lost in a run exactly if one of its steps restarts the call. -/
theorem run_inPhase (hse : c.args.set = .valid c.temporary) (hrn : InRange t.proc)
    (h : InPhase c lost t) :
    ∃ lost', InPhase c lost' (events.foldl (callStep c.base) t) ∧ (lost' = false ↔ lost=false ∧
        Along (callStep c.base) (fun t e => ¬Restarts t e) t events) := by
  induction events generalizing t lost with
  | nil => exact ⟨lost,h,by simp [Along]⟩
  | cons e events ih =>
    have hrn' := callStep_inRange hrn c.base e
    obtain ⟨hr,hs⟩ | ⟨hr,hs⟩ := h.callStep hse hrn e
    · obtain ⟨lost',hru,hl⟩ := ih hrn' hs
      refine ⟨lost',hru,hl.trans ?_⟩
      simp [Along,hr]
    · obtain ⟨lost',hru,hl⟩ := ih hrn' hs
      refine ⟨lost',hru,hl.trans ?_⟩
      simp [Along,hr]

private theorem InPhase.returned (h : InPhase c lost t) (hr : Returned c.base t) :
    t.proc.blockedSignals=c.final lost := by
  obtain hd | ⟨-,hp⟩ := h
  · exact absurd hr.live (by simp [hd.finished])
  obtain ⟨-,⟨frames,signal,hf,-⟩ | ⟨frames,hf,-,hm⟩⟩ := hp.user hr.user
  · have hlen := congrArg length (hr.frames.symm.trans hf)
    simp at hlen
    omega
  · have hlen := congrArg length (hr.frames.symm.trans hf)
    obtain rfl : frames=[] := length_eq_zero_iff.1 (by simpa using hlen)
    exact hm

def callSigsuspend (t : Task) (args : Args) (events : List CallEvent) : Task :=
  events.foldl (callStep t.frames) (step t (.syscall ⟨numSigsuspend,args⟩))

/-- When `sigsuspend` has returned, the mask is the one from before the call exactly if the
temporary mask is the same, or no ignored signal restarted the call. -/
theorem sigsuspend_restores_iff (h : Reachable t) (huser : t.kernel = [])
    (hlive : t.proc.finished = false) {args : Args} {temporary : Sigset}
    (hset : args.set = .valid temporary) (events : List CallEvent)
    (hret : Returned t.frames (callSigsuspend t args events)) :
    (callSigsuspend t args events).proc.blockedSignals = t.proc.blockedSignals ↔
      temporary = t.proc.blockedSignals ∨ Along (callStep t.frames) (fun t e => ¬Restarts t e)
          (step t (.syscall ⟨numSigsuspend,args⟩)) events := by
  let c : Call := ⟨t.frames,args,t.proc.blockedSignals,temporary⟩
  have hs : step t (.syscall ⟨numSigsuspend,args⟩) = { t with
        regs := ⟨numSigsuspend,args⟩
        kernel := [.syscallHandler, .processCheckSignals] } := by
    simp [step,huser,hlive]
  have hp : InPhase c false (step t (.syscall ⟨numSigsuspend,args⟩)) := by
    rw [hs]
    exact .inr ⟨hlive,.calling rfl rfl rfl rfl⟩
  obtain ⟨lost,hr,hl⟩ := run_inPhase hset (step_inRange h.inRange) hp
  have hm : (callSigsuspend t args events).proc.blockedSignals=c.final lost := hr.returned hret
  rw [hm]
  cases lost with
  | false =>
    have ha := (hl.1 rfl).2
    exact ⟨fun _ => .inr ha,fun _ => rfl⟩
  | true =>
    refine ⟨.inl,fun hor => hor.resolve_right fun ha => ?_⟩
    exact absurd (hl.2 ⟨rfl,ha⟩) (by decide)

def sigUsr2 : Nat := 17

def sigactionArgs (signum : Nat) (handler : BitVec 64) : Args :=
  { usr1Args with signum := signum, act := .valid ⟨handler,0,0⟩ }

def maskArgs (mask : Sigset) : Args := { usr1Args with how := 0, set := .valid mask }

/-- A process that handles `SIGUSR1`, ignores `SIGUSR2` and blocks both. -/
def callerTask : Task :=
  run ⟨initProcess,⟨0,usr1Args⟩,[],[]⟩
    [.syscall ⟨numSigaction,sigactionArgs sigUsr1 0x1000⟩, .run true, .run true,
      .syscall ⟨numSigaction,sigactionArgs sigUsr2 1⟩, .run true, .run true,
      .syscall ⟨numSigprocmask,maskArgs (shiftSignal sigUsr1 ||| shiftSignal sigUsr2)⟩,
      .run true, .run true]

def usr1Arrives : CallEvent := .arrives ⟨2,0,0,0⟩ sigUsr1 false none
def usr2Arrives : CallEvent := .arrives ⟨2,0,0,0⟩ sigUsr2 false none

def handledEvents : List CallEvent :=
  [.run true, usr1Arrives, .run true, .run true, .handlerReturns, .run true, .run true, .run true]

/-- `SIGUSR2` arrives before it, and is ignored. -/
def ignoredEvents : List CallEvent :=
  [.run true, usr2Arrives, .run true, .run true, .run true, .run true, usr1Arrives, .run true,
    .run true, .run true, .run true, .handlerReturns, .run true, .run true, .run true]

theorem sigsuspend_restores_iff_handled :
    Returned callerTask.frames (callSigsuspend callerTask (maskArgs 0) handledEvents) ∧
    ((callSigsuspend callerTask (maskArgs 0) handledEvents).proc.blockedSignals =
        callerTask.proc.blockedSignals ↔ 0 = callerTask.proc.blockedSignals ∨
        Along (callStep callerTask.frames) (fun t e => ¬Restarts t e)
          (step callerTask (.syscall ⟨numSigsuspend,maskArgs 0⟩)) handledEvents) :=
  ⟨⟨rfl,rfl,rfl⟩,sigsuspend_restores_iff ((Reachable.init _).run _) rfl rfl rfl handledEvents
    ⟨rfl,rfl,rfl⟩⟩

/-- With an ignored signal before the handled one, the process is left with the temporary mask. -/
theorem sigsuspend_loses_mask : Reachable callerTask ∧ callerTask.kernel = [] ∧
    Returned callerTask.frames (callSigsuspend callerTask (maskArgs 0) ignoredEvents) ∧
    (callSigsuspend callerTask (maskArgs 0) ignoredEvents).proc.blockedSignals = 0 ∧
    (callSigsuspend callerTask (maskArgs 0) ignoredEvents).proc.blockedSignals ≠
      callerTask.proc.blockedSignals :=
  ⟨(Reachable.init _).run _,rfl,⟨rfl,rfl,rfl⟩,by decide,by decide⟩
end RazionOS.Kernel.Sys.Signal
