import RazionOS.Kernel.Sys.SignalDelivery

/-!
# SIGKILL

Nothing that a process does keeps `SIGKILL` from terminating it: its handler is never set, and
no system call waits for it.
-/

namespace RazionOS.Kernel.Sys.Signal

def Process.killPending (p : Process) : Bool := hasSignal p.pendingSignals sigKill
def Task.Checking (t : Task) : Prop := ∃ k, t.kernel = .processCheckSignals::k

def TerminatedByCheck (t : Task) (e : Event) : Prop :=
  t.Checking ∧ (∃ stackOk, e = .run stackOk) ∧ (step t e).proc.finished

/-- The next round acts on the signal, which is pending and not blocked. -/
def Task.DispatchesUnblocked (t : Task) (signal : Nat) : Prop :=
  nextSignal numSignals t.proc.pending 0=some signal ∧
    hasSignal t.proc.pendingSignals signal ∧ ¬hasSignal t.proc.blockedSignals signal

structure KillKept (p p' : Process) : Prop where
  handler : (p.signals sigKill).handler=0 → (p'.signals sigKill).handler=0
  pending : p.killPending → p'.killPending

/-- A system call that the kernel is in does not wait for `SIGKILL`. -/
def Activation.SparesKill : Activation → Prop
  | .signalAwait awaited | .arming awaited | .awaiting awaited => hasSignal awaited sigKill=false
  | _ => True

structure KillSafe (t t' : Task) : Prop where
  kept : KillKept t.proc t'.proc
  spares : ∀ a∈t'.kernel, a.SparesKill

variable {t : Task} {k : List Activation} {p p' : Process}

theorem KillKept.refl : KillKept p p := ⟨id,id⟩

theorem KillKept.trans (h : KillKept p p') (h' : KillKept p' p'') :
    KillKept p p'' := ⟨h'.handler ∘ h.handler,h'.pending ∘ h.pending⟩

theorem KillKept.of_eq (hs : p'.signals=p.signals)
    (hp : p'.pendingSignals=p.pendingSignals) : KillKept p p' :=
  ⟨fun h => by rw [hs,h],fun h => by rwa [Process.killPending,hp]⟩

theorem KillKept.setSignal (h : signum≠sigKill) (config : SignalConfig) :
    KillKept p (p.setSignal signum config) := by
  refine ⟨fun hk => ?_,id⟩
  simpa [Process.setSignal,Function.update_of_ne h.symm] using hk

theorem ne_sigKill_of_not_refused (h : ¬refusedSignal signum) : signum.toNat≠sigKill := by
  rintro heq
  refine h (.inr (.inl ?_))
  have : 0 ≤ signum := by
    by_contra hn
    exact h (.inl (.inr (by omega)))
  omega

private theorem sysSignal_kept (handler : BitVec 64) :
    KillKept p (sysSignal p signum handler).1 := by
  unfold sysSignal
  split
  · exact .refl
  · next h => exact .setSignal (ne_sigKill_of_not_refused h) _

private theorem sysSigaction_kept : KillKept p (sysSigaction p signum act oldact).1 := by
  unfold sysSigaction
  split
  · exact .refl
  split
  · exact .refl
  next h =>
  cases act.read? with
  | none => exact .refl
  | some config => exact .setSignal (ne_sigKill_of_not_refused h) _

private theorem sysSigprocmask_kept (how : Int) (set : UserPtr Sigset) :
    KillKept p (sysSigprocmask p how set oset).1 := by
  unfold sysSigprocmask
  split
  · exact .refl
  cases set with
  | null => exact .refl
  | invalid => exact .refl
  | valid set =>
    simp only
    cases setmask how p.blockedSignals set <;> exact .of_eq rfl rfl

private theorem sysSigwait_spares {set : Sigset} (h : sysSigwait p set=some awaited) :
    hasSignal awaited sigKill=false := by
  simp only [sysSigwait,Option.ite_none_left_eq_some,Option.some.injEq] at h
  rw [← h.2,hasSignal_and,hasSignal_not (by decide),hasSignal_or,hasSignal_shiftSignal (by decide)]
  simp

private theorem takeAwaited_kept (hs : hasSignal awaited sigKill=false)
    (h : takeAwaited p awaited=some (p', signal)) : KillKept p p' := by
  simp only [takeAwaited,Option.map_eq_some_iff] at h
  obtain ⟨n,hn,rfl,rfl⟩ := h
  obtain ⟨m,hm,rfl,hb,-⟩ := nextSignal_eq_some hn
  refine ⟨id,fun hki => ?_⟩
  have hne : m≠sigKill := by
    rintro rfl
    simp [hs] at hb
  simpa [Process.killPending,hasSignal_clear (lt_of_hasSignal hb),hne] using hki

private theorem sendSignalInfo_kept :
    KillKept p (sendSignalInfo p sender signal forceRoot cause).receiver := by
  obtain ⟨_,_,h | ⟨n,-,-,-,h⟩⟩ := sendSignalInfo_cases p sender signal forceRoot cause
  · rw [h]
    exact .of_eq rfl rfl
  · rw [h]
    exact ⟨id,fun hki => by
      rw [Process.killPending,hasSignal_or,Bool.or_eq_true]; exact .inl hki⟩

private theorem takeSignal_kept (hs : signal<64) (hne : signal≠sigKill) :
    KillKept p (takeSignal p signal).1 := by
  refine ⟨id,fun hki => ?_⟩
  simp only [takeSignal,Process.killPending] at hki ⊢
  split
  · exact hki
  · simpa [hasSignal_clear hs,hne] using hki

section Kernel
variable (hk : ∀ a ∈ k, a.SparesKill)
include hk

theorem KillSafe.resume (h : KillKept t.proc p) : KillSafe t (t.resume k p) := ⟨h,hk⟩

theorem finishSyscall_safe (h : KillKept t.proc p) :
    KillSafe t (t.finishSyscall k p result) := ⟨h.trans (.of_eq rfl rfl),hk⟩

theorem spares_cons (ha : a.SparesKill) : ∀ b∈a::k, b.SparesKill := List.forall_mem_cons.2 ⟨ha,hk⟩

private theorem syscallHandler_safe : KillSafe t (t.syscallHandler k) := by
  unfold Task.syscallHandler
  split
  · exact finishSyscall_safe hk .refl
  cases syscalls t.regs.number with
  | signal => exact finishSyscall_safe hk (sysSignal_kept _)
  | sigaction => exact finishSyscall_safe hk sysSigaction_kept
  | sigprocmask => exact finishSyscall_safe hk (sysSigprocmask_kept _ _)
  | sigsuspend =>
    simp only
    split
    · exact finishSyscall_safe hk .refl
    · exact .resume (spares_cons hk trivial) (.of_eq rfl rfl)
  | sigwait =>
    simp only
    split
    · split
      · exact finishSyscall_safe hk .refl
      · next h => exact .resume (spares_cons hk (sysSigwait_spares h)) .refl
    · exact finishSyscall_safe hk .refl
  | other => exact .resume (spares_cons hk trivial) .refl

private theorem signalAwait_safe (h : hasSignal awaited sigKill=false) :
    KillSafe t (t.signalAwait k awaited) := by
  unfold Task.signalAwait
  split
  · next ht => exact finishSyscall_safe hk (takeAwaited_kept h ht)
  · exact .resume (spares_cons hk h) .refl

private theorem wakeAwaiting_safe (h : hasSignal awaited sigKill=false) :
    KillSafe t (t.wakeAwaiting k awaited) := by
  have hw : KillKept t.proc { t.proc with awaitedSignals := 0 } := .of_eq rfl rfl
  simp only [Task.wakeAwaiting]
  split
  · exact .resume (spares_cons hk h) hw
  · exact finishSyscall_safe hk hw

private theorem maybeRestartSystemCall_safe :
    KillSafe t (t.maybeRestartSystemCall k signum noHandler) := by
  have hc : KillKept t.proc { t.proc with interruptedSystemCall := 0 } := .of_eq rfl rfl
  have hr := spares_cons hk (a := .restoreSigmask) trivial
  simp only [Task.maybeRestartSystemCall]
  split
  · exact .resume hk .refl
  split
  · split
    · exact ⟨hc,spares_cons hk trivial⟩
    · exact ⟨hc,hk⟩
  split
  · split
    · exact ⟨hc,spares_cons hr trivial⟩
    · exact ⟨hc,hr⟩
  · exact .resume hk .refl

private theorem restoreSigmask_safe : KillSafe t (t.restoreSigmask k) := by
  unfold Task.restoreSigmask
  split <;> exact .resume hk (.of_eq rfl rfl)

private theorem checkAgain_safe (h : ∀ a∈otherwise, a.SparesKill) :
    KillSafe t (t.checkAgain k otherwise) := by
  unfold Task.checkAgain
  split
  · exact .resume h .refl
  · exact .resume (spares_cons hk trivial) .refl
end Kernel

theorem taskExit_safe : KillSafe t (t.taskExit retval) := .resume (by simp) (.of_eq rfl rfl)

private theorem archEnterSignalHandler_safe (h : KillKept t.proc p) :
    KillSafe t (t.archEnterSignalHandler p config cause stackOk) := by
  unfold Task.archEnterSignalHandler
  split
  · exact ⟨h.trans (.of_eq rfl rfl),by simp⟩
  · exact taskExit_safe

private theorem handleSignal_safe (hk : ∀ a∈k, a.SparesKill) (hne : signum≠sigKill)
    (cause : Siginfo) (stackOk : Bool) : KillSafe t (t.handleSignal k signum cause stackOk) := by
  have hig := spares_cons hk (a := .signalIgnored) trivial
  have hi : KillSafe t
      (t.resume (.maybeRestartSystemCall signum true :: .signalIgnored::k) t.proc) :=
    .resume (spares_cons hig trivial) .refl
  simp only [Task.handleSignal]
  split
  · exact .resume hk .refl
  split
  · exact hi
  split
  · cases sigDefaults signum with
    | term | core => exact taskExit_safe
    | stop => exact .resume (spares_cons hk trivial) (.of_eq rfl rfl)
    | cont | ign => exact hi
  split
  · exact hi
  split
  · exact archEnterSignalHandler_safe (.setSignal hne _)
  · exact archEnterSignalHandler_safe .refl

theorem handleSignal_sigKill (hh : (t.proc.signals sigKill).handler=0)
    (hf : t.proc.finished=false) :
    t.handleSignal k sigKill cause stackOk=t.taskExit (((128+sigKill) <<< 8) ||| sigKill) := by
  simp only [Task.handleSignal,hf,hh]
  rfl

structure KillInv (t : Task) : Prop where
  handler : (t.proc.signals sigKill).handler=0
  spares : ∀ a∈t.kernel, a.SparesKill

structure KillStep (t : Task) (e : Event) : Prop where
  inv : KillInv (step t e)
  pending : t.proc.killPending → (step t e).proc.killPending ∨ TerminatedByCheck t e

section
variable (h : KillInv t)
include h

private theorem KillInv.of_safe (hs : KillSafe t t') : KillInv t' :=
  ⟨hs.kept.handler h.handler,hs.spares⟩

theorem KillStep.of_safe (hs : KillSafe t (step t e)) :
    KillStep t e := ⟨h.of_safe hs,fun hki => .inl (hs.kept.pending hki)⟩

private theorem processCheckSignals_killStep (hker : t.kernel = .processCheckSignals::k) :
    KillStep t (.run stackOk) := by
  have hk : ∀ a∈k, a.SparesKill := fun a ha => h.spares a (by simp [hker,ha])
  have hs : step t (.run stackOk)=t.processCheckSignals k stackOk := by
    simp [step,Task.runKernel,hker]
  obtain ⟨heq,-⟩ | ⟨signal,hf,hn,heq⟩ := t.processCheckSignals_cases k stackOk
  · exact .of_safe h (hs ▸ heq ▸ .resume hk .refl)
  rw [heq] at hs
  by_cases hki : signal=sigKill
  · subst hki
    rw [handleSignal_sigKill (by exact h.handler) (by exact hf)] at hs
    refine ⟨hs ▸ ⟨h.handler,by simp [Task.taskExit,Task.resume]⟩,fun _ => .inr ?_⟩
    exact ⟨⟨k,hker⟩,⟨stackOk,rfl⟩,hs ▸ rfl⟩
  · obtain ⟨m,-,rfl,hb,-⟩ := nextSignal_eq_some hn
    rw [Nat.zero_add] at hki hs
    have hke : KillKept t.proc (takeSignal t.proc m).1 := takeSignal_kept (lt_of_hasSignal hb) hki
    have hsa := handleSignal_safe (t := t.resume k (takeSignal t.proc m).1) hk hki
      (causeOf m (takeSignal t.proc m).2) stackOk
    exact .of_safe h (hs ▸ ⟨hke.trans hsa.kept,hsa.spares⟩)

private theorem runKernel_safe (hn : ¬t.Checking) : KillSafe t (t.runKernel stackOk) := by
  have hs : KillSafe t t := ⟨.refl,h.spares⟩
  unfold Task.runKernel
  cases hke : t.kernel with
  | nil => exact hs
  | cons a k =>
    have hal := hke ▸ h.spares
    obtain ⟨ha,hk⟩ := List.forall_mem_cons.1 hal
    cases a with
    | syscallHandler => exact syscallHandler_safe hk
    | systemCall => exact hs
    | signalWait =>
      simp only [Task.signalWait]
      split
      · exact hs
      · exact ⟨.of_eq rfl rfl,hk⟩
    | signalAwait awaited => exact signalAwait_safe hk ha
    | arming awaited => exact .resume (spares_cons hk ha) (.of_eq rfl rfl)
    | awaiting awaited => exact wakeAwaiting_safe hk ha
    | maybeRestartSystemCall signum noHandler => exact maybeRestartSystemCall_safe hk
    | restoreSigmask => exact restoreSigmask_safe hk
    | signalIgnored => exact checkAgain_safe hk hk
    | stopped => exact checkAgain_safe hk hal
    | processCheckSignals => exact absurd ⟨k,hke⟩ hn

theorem step_killStep (e : Event) : KillStep t e := by
  have hs : KillSafe t t := ⟨.refl,h.spares⟩
  cases e with
  | send sender signal forceRoot cause =>
    exact .of_safe h ⟨sendSignalInfo_kept,h.spares⟩
  | syscall regs =>
    refine .of_safe h ?_
    simp only [step]
    split
    · exact ⟨.refl,by simp [Activation.SparesKill]⟩
    · exact hs
  | interrupt regs =>
    refine .of_safe h ?_
    simp only [step]
    split
    · exact ⟨.refl,by simp [Activation.SparesKill]⟩
    · exact hs
  | sigreturn frame =>
    refine .of_safe h ?_
    simp only [step]
    split
    · cases frame with
      | none => exact taskExit_safe
      | some frame =>
        refine ⟨.of_eq rfl rfl,?_⟩
        simp only [Task.returnFromSignalHandler]
        split <;> simp [Activation.SparesKill]
    · exact hs
  | systemCallReturns result =>
    refine .of_safe h ?_
    simp only [step]
    split
    · next k hke =>
      split
      · exact hs
      · exact finishSyscall_safe (fun a ha => h.spares a (by simp [hke,ha])) .refl
    · exact hs
  | systemCallExits retval =>
    refine .of_safe h ?_
    simp only [step]
    split
    · exact taskExit_safe
    · exact hs
  | systemCallSetsIds user realUser session =>
    refine .of_safe h ?_
    simp only [step]
    split
    · exact ⟨.of_eq rfl rfl,h.spares⟩
    · exact hs
  | run stackOk =>
    by_cases hc : t.Checking
    · obtain ⟨k,hke⟩ := hc
      exact processCheckSignals_killStep h hke
    · exact .of_safe h (runKernel_safe h hc)

end

private theorem Reachable.killInv (h : Reachable t) : KillInv t := by
  induction h with
  | init regs => exact ⟨rfl,by simp⟩
  | fork _ _ ih => exact ⟨ih.handler,by simp⟩
  | exec _ _ regs ih =>
    refine ⟨?_,by simp⟩
    simp only [Process.exec]
    split
    · rfl
    · exact ih.handler
  | step e _ ih => exact (step_killStep ih e).inv

/-- With `SIGKILL` pending, a round terminates the process or acts on a lower signal. -/
theorem checking_killPending (h : KillInv t) (hki : t.proc.killPending) (hc : t.Checking)
    (stackOk : Bool) : TerminatedByCheck t (.run stackOk) ∨
      ∃ signal < sigKill, t.DispatchesUnblocked signal := by
  have hp : hasSignal t.proc.pending sigKill := by
    rw [Process.killPending] at hki
    simp [hasSignal_pending (show sigKill<64 by decide),hki]
  obtain ⟨m,hm,hnex⟩ := nextSignal_le 0 (show sigKill<numSignals by decide) hp
  rw [Nat.zero_add] at hnex
  obtain rfl | hlt := Nat.eq_or_lt_of_le hm
  · obtain ⟨k,hke⟩ := hc
    refine .inl ⟨⟨k,hke⟩,⟨stackOk,rfl⟩,?_⟩
    simp only [step,Task.runKernel,hke]
    obtain ⟨heq,he | he⟩ | ⟨signal,hf,hs,heq⟩ := t.processCheckSignals_cases k stackOk
    · rw [heq]
      exact he
    · simp [hnex] at he
    · obtain rfl : sigKill=signal := Option.some.inj (hnex.symm.trans hs)
      rw [heq,handleSignal_sigKill (by exact h.handler) (by exact hf)]
      rfl
  · obtain ⟨n,-,hn,hb,-⟩ := nextSignal_eq_some hnex
    obtain rfl : m=n := by omega
    have hne : m≠sigStop := fun heq => absurd (heq ▸ hlt) (by decide)
    rw [hasSignal_pending (lt_of_hasSignal hb)] at hb
    simp only [Bool.and_eq_true,Bool.or_eq_true,beq_iff_eq,hne,Nat.ne_of_lt hlt,or_false,
      Bool.not_eq_true'] at hb
    exact .inr ⟨m,hlt,hnex,hb.1,by simp [hb.2]⟩

private theorem run_killPending (h : KillInv t) (hki : t.proc.killPending) :
    (run t events).proc.killPending ∨ ∃ before e after, events=before++e::after ∧
      TerminatedByCheck (run t before) e := by
  induction events generalizing t with
  | nil => exact .inl hki
  | cons e events ih =>
    have hs := step_killStep h e
    obtain hki' | ht := hs.pending hki
    · obtain hr | ⟨before,e',after,rfl,ht⟩ := ih hs.inv hki'
      · exact .inl hr
      · exact .inr ⟨e::before,e',after,rfl,ht⟩
    · exact .inr ⟨[],e,events,rfl,ht⟩

/-- Once `SIGKILL` is pending, it stays so until the process is terminated, and each round does so
or acts on a lower signal that is not blocked. -/
theorem sigkill_not_evaded (h : Reachable t) (hkill : t.proc.killPending) (events : List Event) :
    ((run t events).proc.killPending ∨ ∃ before e after, events = before ++ e :: after ∧
      TerminatedByCheck (run t before) e) ∧
    ((run t events).proc.killPending → (run t events).Checking → ∀ stackOk,
      TerminatedByCheck (run t events) (.run stackOk) ∨
        ∃ signal < sigKill, (run t events).DispatchesUnblocked signal) :=
  ⟨run_killPending h.killInv hkill,
    fun hp hc => checking_killPending (h.run events).killInv hp hc⟩

/-- `SIGKILL` is sent to a process that is in a call to block all signals. -/
def killedTask : Task :=
  run ⟨initProcess,⟨0,0,0,0,.null,.null,.null,.null,.null⟩,[],[]⟩
    [.syscall ⟨75,0,0,0,.null,.null,.valid (BitVec.allOnes 64),.null,.null⟩,
      .send ⟨0,0,0,0⟩ sigKill true none]

theorem sigkill_not_evaded_masked : killedTask.proc.killPending ∧
    let masked := run killedTask [.run true]
    masked.proc.blockedSignals = BitVec.allOnes 64 ∧ (TerminatedByCheck masked (.run true) ∨
      ∃ signal < sigKill, masked.DispatchesUnblocked signal) :=
  ⟨by decide,by decide,(sigkill_not_evaded ((Reachable.init _).run _) (by decide) [.run true]).2
    (by decide) ⟨[],rfl⟩ true⟩
end RazionOS.Kernel.Sys.Signal
