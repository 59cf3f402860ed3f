import Mathlib.Logic.Relation
import RazionOS.Kernel.Sys.SignalQueue

/-!
# The sender and the waiter of a signal

What `sys_sigqueue` hands to the process that handles the signal, and how a sender wakes a process
that waits in `sys_sigwait`.
-/

namespace RazionOS.Kernel.Sys.Signal
open Framework List
open Relation (ReflTransGen)

/-- The events of the process. `SI_QUEUE` is a code of `sys_sigqueue` alone, which passes a
`siginfo_t` that is zero but for the code and the value. -/
def Event.Sent : Event → Prop
  | .send _ _ _ (some cause) => cause.code=siQueue → cause.pid=0 ∧ cause.uid=0
  | _ => True

/-- An entry of the queue with its sender and the value that was passed. -/
structure Entry where
  info : Siginfo
  sender : Sender
  value : Int

structure Tracked where
  task : Task
  entries : List Entry

def entriesOf (t : Task) : Event → List Entry
  | .send sender signal forceRoot cause =>
    (accepts t (.send sender signal forceRoot cause)).map fun info =>
      ⟨info,sender,(cause.map (·.value)).getD 0⟩
  | _ => []

def Entry.isOf (signal : Nat) (entry : Entry) : Bool := entry.info.signo == signal

def track (s : Tracked) (e : {e : Event // e.Sent}) : Tracked where
  task := step s.task e
  entries := (match delivers s.task e with
    | some signal => s.entries.eraseP (Entry.isOf signal)
    | none => s.entries)++entriesOf s.task e

/-- The step enters a handler with the `siginfo_t` of the entry. -/
def HandsOver (s : Tracked) (e : Event) (entry : Entry) : Prop :=
  ∃ signal, delivers s.task e=some signal ∧ (takeSignal s.task.proc signal).2=some entry.info ∧
    s.entries.find? (Entry.isOf signal)=some entry ∧
    (step s.task e).frames.length=s.task.frames.length+1

def Entry.Identified (entry : Entry) : Prop :=
  entry.info.pid=entry.sender.id ∧ entry.info.uid=entry.sender.realUser ∧
    entry.info.value=entry.value

structure TrackInv (s : Tracked) : Prop where
  queue : s.entries.map Entry.info=s.task.proc.sigQueue
  anonymous : ∀ entry∈s.entries, entry.info.code=siQueue →
    entry.info.pid=0 ∧ entry.info.uid=0 ∧ entry.info.value=entry.value

private theorem step_sigQueue (t : Task) (e : Event) : (step t e).proc.sigQueue =
    (match delivers t e with
      | some signal => t.proc.sigQueue.eraseP fun info => info.signo == signal
      | none => t.proc.sigQueue)++accepts t e := by
  cases e with
  | send sender signal forceRoot cause =>
    obtain ⟨_,_,hr | ⟨n,-,-,-,hr⟩⟩ := sendSignalInfo_cases t.proc sender signal forceRoot cause
    · simp [step,accepts,delivers,hr]
    · simp [step,accepts,delivers,hr]
  | run stackOk =>
    cases hd : delivers t (.run stackOk) with
    | some signal => simp [(run_delivers hd).2.queue,takeSignal_queue,accepts]
    | none =>
      cases hw : sigwaits t (.run stackOk) with
      | some signal => simp [(run_sigwaits hw).2.1,accepts]
      | none => simp [(run_queueKept hd hw).queue,accepts]
  | _ => exact (step_queueKept (by simp) (by simp)).queue.trans (append_nil _).symm

private theorem mem_entriesOf (he : e.Sent) (hmem : entry∈entriesOf t e)
    (hc : entry.info.code=siQueue) :
    entry.info.pid=0 ∧ entry.info.uid=0 ∧ entry.info.value=entry.value := by
  cases e with
  | send sender signal forceRoot cause =>
    obtain ⟨info,hi,rfl⟩ := mem_map.1 hmem
    obtain ⟨_,_,hr | ⟨n,-,-,-,hr⟩⟩ := sendSignalInfo_cases t.proc sender signal forceRoot cause
    · simp [accepts,hr] at hi
    cases cause with
    | none => simp [accepts,hr,heapCause] at hi
    | some cause =>
      obtain rfl : info = { cause with signo := n } := by simpa [accepts,hr,heapCause] using hi
      obtain ⟨hp,hu⟩ := he hc
      exact ⟨hp,hu,rfl⟩
  | _ => cases hmem

private theorem TrackInv.track (h : TrackInv s) (e : {e : Event // e.Sent}) :
    TrackInv (track s e) := by
  have hstep := step_sigQueue s.task e
  have ho : (entriesOf s.task e).map Entry.info=accepts s.task e := by
    obtain ⟨e,-⟩ := e
    cases e with
    | send sender signal forceRoot cause =>
      rw [entriesOf,map_map]
      exact map_id _
    | _ => rfl
  simp only [Signal.track]
  cases hd : delivers s.task e with
  | none =>
    rw [hd] at hstep
    refine ⟨?_,fun entry hmem => ?_⟩
    · rw [map_append,h.queue,ho,hstep]
    · exact (mem_append.1 hmem).elim (h.anonymous entry) (mem_entriesOf e.2)
  | some signal =>
    simp only [hd,← h.queue,eraseP_map] at hstep
    refine ⟨?_,fun entry hmem => ?_⟩
    · rw [map_append,ho,hstep]
      rfl
    · exact (mem_append.1 hmem).elim (fun hm => h.anonymous entry (mem_of_mem_eraseP hm))
        (mem_entriesOf e.2)

def Tracked.start (parent : Process) (regs : Regs) (frames : List SignalFrame) : Tracked :=
  ⟨⟨parent.fork,regs,[],frames⟩,[]⟩

/-- A handler is told who queued the signal exactly if this is process 0 of user 0, which is what
it is told about everyone. -/
theorem sigqueue_identifies_iff (parent : Process) (regs : Regs) (frames : List SignalFrame)
    (events : List {e : Event // e.Sent}) (e : Event) (entry : Entry) :
    let s := events.foldl track (.start parent regs frames)
    s.entries.map Entry.info = s.task.proc.sigQueue ∧
      (HandsOver s e entry → entry.info.code = siQueue →
        (entry.Identified ↔ entry.sender.id = 0 ∧ entry.sender.realUser = 0)) := by
  have hinv := foldlRecOn events track (motive := TrackInv) (b := .start parent regs frames)
    ⟨rfl,nofun⟩ fun s h e _ => h.track e
  refine ⟨hinv.queue,fun ⟨_,_,_,hf,_⟩ hc => ?_⟩
  obtain ⟨hp,hu,hv⟩ := hinv.anonymous entry (mem_of_find?_eq_some hf) hc
  simp only [Entry.Identified]
  omega

/-- `SIGUSR1` is queued by process 5 of user 0 for a process that handles it. -/
def usr1Queued : Tracked :=
  [⟨.send ⟨5,0,0,0⟩ sigUsr1 false (some ⟨0,siQueue,7,0,0⟩),fun _ => ⟨rfl,rfl⟩⟩,
    ⟨.interrupt ⟨0,usr1Args⟩,trivial⟩].foldl track
      (.start { usr1Parent with blockedSignals := 0 } ⟨0,usr1Args⟩ [])

theorem sigqueue_hides_sender : let entry : Entry := ⟨⟨sigUsr1,siQueue,7,0,0⟩,⟨5,0,0,0⟩,7⟩
    HandsOver usr1Queued (.run true) entry ∧ ¬entry.Identified :=
  ⟨⟨sigUsr1,by decide,by decide,rfl,rfl⟩,fun h => absurd h.1 (by decide)⟩

/-- The process is in the loop of `sys_sigwait`; it has its signals awaited while it sleeps. -/
structure Sigwaiting (awaited : Sigset) (k : List Activation) (t : Task) : Prop where
  phase : (t.kernel = .signalAwait awaited::k ∨ t.kernel = .arming awaited::k) ∧
      t.proc.awaitedSignals=0 ∨
    t.kernel = .awaiting awaited::k ∧ t.proc.awaitedSignals=awaited
  blocked : ∀ n, hasSignal awaited n → hasSignal t.proc.blockedSignals n ∧ n≠sigKill ∧ n≠sigStop
  live : t.proc.finished=false

structure Delivery where
  sender : Sender
  signal : Int
  forceRoot : Bool
  cause : Option Siginfo

def Delivery.test (d : Delivery) (p : Process) : Process × Except Int Bool :=
  testSignal p d.sender d.signal d.forceRoot

def Delivery.mark (d : Delivery) (p : Process) : Process :=
  (markPending p d.sender d.signal.toNat d.cause).1

def Delivery.Permitted (d : Delivery) (p : Process) : Prop :=
  p.isTasklet=false ∧ (d.forceRoot ∨ d.sender.mayNotSignal p d.signal=false)

/-- A sender is before or behind `sig_lock`, or the process itself goes on. -/
inductive Move (goesOn : Task → Prop) : Task → Task → Prop
  | tests (d : Delivery) (t : Task) : Move goesOn t { t with proc := (d.test t.proc).1 }
  | marks (d : Delivery) (t : Task) : Move goesOn t { t with proc := d.mark t.proc }
  | runs (t : Task) (h : goesOn t) : Move goesOn t (step t (.run true))

private theorem Move.mono (h : ∀ t, P t → Q t) (hm : Move P t t') : Move Q t t' := by
  cases hm with
  | tests d => exact .tests d t
  | marks d => exact .marks d t
  | runs _ hp => exact .runs t (h t hp)

/-- The process does not return from the call. -/
def Stays (k : List Activation) (t : Task) : Prop := (step t (.run true)).kernel≠k

/-- The process only goes to sleep. -/
def Arms (awaited : Sigset) (k : List Activation) (t : Task) : Prop :=
  t.kernel = .arming awaited::k

/-- A pass of the loop that returns 0 with the lowest signal, which is then not pending. -/
def TakesLowest (awaited : Sigset) (k : List Activation) (t : Task) : Prop :=
  let t' := step t (.run true)
  let maybe := awaited &&& t.proc.pendingSignals
  t'.kernel=k ∧ t'.regs.number=0 ∧
    ∃ n, sigwaits t (.run true)=some n ∧ hasSignal t'.proc.pendingSignals n=false ∧
      hasSignal maybe n ∧ ∀ m<n, hasSignal maybe m=false

/-- The process wakes up, and its next pass returns. -/
def ReturnsLowest (awaited : Sigset) (k : List Activation) (t : Task) : Prop :=
  let woken := step t (.run true)
  woken.kernel = .signalAwait awaited::k ∧ TakesLowest awaited k woken

private theorem sigwaiting_of_call (hk : t.kernel = .signalAwait awaited::k)
    (hs : sysSigwait t.proc asked=some awaited) (hl : t.proc.finished=false)
    (hz : t.proc.awaitedSignals=0) : Sigwaiting awaited k t := by
  refine ⟨.inl ⟨.inl hk,hz⟩,fun n ha => ?_,hl⟩
  have h64 := lt_of_hasSignal ha
  rw [sysSigwait] at hs
  split at hs
  · cases hs
  next hb =>
  obtain rfl := Option.some.inj hs
  constructor
  · -- an awaited signal that is not blocked would have been refused
    by_contra hnb
    refine hb (ne_zero_of_hasSignal (n := n) ?_)
    rw [hasSignal_and,ha,hasSignal_not h64,Bool.true_and,Bool.not_eq_true']
    exact Bool.eq_false_iff.2 hnb
  · rw [hasSignal_and,hasSignal_not h64,hasSignal_or,hasSignal_shiftSignal (by decide),
      hasSignal_shiftSignal (by decide)] at ha
    grind

theorem test_eq (d : Delivery) : ∃ suspended status,
    (d.test p).1 = { p with suspended := suspended, status := status } :=
  (testSignal_spec p d.sender d.signal _).1

private theorem hasSignal_mark (d : Delivery) (hn : hasSignal p.pendingSignals n) :
    hasSignal (d.mark p).pendingSignals n := by
  simp [Delivery.mark,markPending_eq,hn]

private theorem Sigwaiting.run (h : Sigwaiting awaited k t) (hk : Stays k t) :
    Sigwaiting awaited k (step t (.run true)) := by
  obtain ⟨⟨hs | ha,hz⟩ | ⟨hw,-⟩,hb,hl⟩ := h
  · simp only [Stays,step,Task.runKernel,hs,Task.signalAwait] at hk ⊢
    split at hk
    · exact absurd rfl hk
    · exact ⟨.inl ⟨.inr rfl,hz⟩,hb,hl⟩
  · simp only [step,Task.runKernel,ha]
    exact ⟨.inr ⟨rfl,rfl⟩,hb,hl⟩
  · simp only [Stays,step,Task.runKernel,hw,Task.wakeAwaiting] at hk ⊢
    by_cases hp : ({ t.proc with awaitedSignals := 0 } : Process).pending=0
    · rw [if_pos hp]
      exact ⟨.inl ⟨.inl rfl,rfl⟩,hb,hl⟩
    · rw [if_neg hp] at hk
      exact absurd rfl hk

theorem Sigwaiting.move (h : Sigwaiting awaited k t) (hm : Move (Stays k) t t') :
    Sigwaiting awaited k t' := by
  cases hm with
  | tests d =>
    obtain ⟨_,_,he⟩ := test_eq d
    rw [he]
    exact ⟨h.1,h.2,h.3⟩
  | marks d =>
    rw [Delivery.mark,markPending_eq]
    exact ⟨h.1,h.2,h.3⟩
  | runs _ hk => exact h.run hk

private theorem Sigwaiting.moves (h : Sigwaiting awaited k t)
    (hm : ReflTransGen (Move (Stays k)) t t') : Sigwaiting awaited k t' := by
  induction hm with
  | refl => exact h
  | tail _ hm ih => exact ih.move hm

private theorem Arms.stays (h : Arms awaited k t) : Stays k t := by
  unfold Arms at h
  simp [Stays,step,Task.runKernel,h,Task.arm,Task.resume]

/-- What is pending stays so until the process goes on with the call. -/
theorem hasSignal_of_moves (hm : ReflTransGen (Move (Arms awaited k)) t t')
    (hn : hasSignal t.proc.pendingSignals n) : hasSignal t'.proc.pendingSignals n := by
  induction hm with
  | refl => exact hn
  | tail _ hm ih =>
    cases hm with
    | tests d =>
      obtain ⟨_,_,he⟩ := test_eq d
      rw [he]
      exact ih
    | marks d => exact hasSignal_mark d ih
    | runs _ h =>
      unfold Arms at h
      simp only [step,Task.runKernel,h]
      exact ih

theorem takesLowest (hk : t.kernel = .signalAwait awaited::k) (hn : n<numSignals)
    (hm : hasSignal (awaited &&& t.proc.pendingSignals) n) : TakesLowest awaited k t := by
  obtain ⟨m,-,hnext⟩ := nextSignal_le 0 hn hm
  obtain ⟨i,-,heq,hb,hlow⟩ := nextSignal_eq_some hnext
  rw [heq] at hnext
  have hw : sigwaits t (.run true)=some i := by simp [sigwaits,hk,takeAwaited,hnext]
  obtain ⟨h64,-,hp⟩ := run_sigwaits hw
  have hstep : step t (.run true)=t.finishSyscall k
      { t.proc with pendingSignals := t.proc.pendingSignals &&& ~~~shiftSignal i } 0 := by
    simp [step,Task.runKernel,hk,Task.signalAwait,takeAwaited,hnext]
  refine ⟨by rw [hstep]; rfl,by rw [hstep]; rfl,i,hw,?_,hb,hlow⟩
  simp [hp,hasSignal_clear h64]

private theorem returnsLowest_iff (hk : t.kernel = .awaiting awaited::k) (hn : n<numSignals)
    (hm : hasSignal (awaited &&& t.proc.pendingSignals) n) :
    ReturnsLowest awaited k t ↔ t.proc.pending=0 := by
  have hstep : step t (.run true)=t.wakeAwaiting k awaited := by
    simp [step,Task.runKernel,hk]
  rw [ReturnsLowest,hstep]
  by_cases hp : t.proc.pending=0
  · have hwoken : t.wakeAwaiting k awaited =
        t.resume _ { t.proc with awaitedSignals := 0 } := if_pos hp
    rw [hwoken]
    exact iff_of_true ⟨rfl,takesLowest rfl hn hm⟩ hp
  · have hwoken : t.wakeAwaiting k awaited =
        t.finishSyscall k { t.proc with awaitedSignals := 0 } (-eIntr) := if_neg hp
    rw [hwoken]
    exact iff_of_false (fun hr => cons_ne_self _ _ hr.1.symm) hp

private theorem and_shiftSignal (h : hasSignal held n) : held &&& shiftSignal n=shiftSignal n := by
  refine BitVec.eq_of_getLsbD_eq fun m _ => ?_
  change hasSignal (held &&& _) m=hasSignal _ m
  rw [hasSignal_and,hasSignal_shiftSignal (lt_of_hasSignal h)]
  by_cases hm : n=m <;> grind

private theorem Sigwaiting.tested (h : Sigwaiting awaited k t) (hpos : 0<n) (hn : n<numSignals)
    (ha : hasSignal awaited n) (d : Delivery) (hd : d.signal=n) (hm : d.Permitted t.proc) :
    ∃ wakes, (d.test t.proc).2 = .ok wakes ∧
      (wakes ↔ n<32 ∧ t.kernel = .awaiting awaited::k) := by
  obtain ⟨sender,signal,forceRoot,cause⟩ := d
  obtain rfl : signal=n := hd
  obtain ⟨htask,hper⟩ := hm
  obtain ⟨hb,hkill,hstop⟩ := h.blocked n ha
  have hint : ∀ n<numSignals, shiftSignal n≠0 ∧
      ((shiftSignal n).setWidth 32 != 0)=decide (n<32) := by decide
  have hblocked : (t.proc.blockedSignals &&& shiftSignal n != 0 && n != sigKill && n != sigStop) =
      true := by
    rw [and_shiftSignal hb]
    simp only [bne_iff_ne,Bool.and_eq_true]
    exact ⟨⟨(hint n hn).1,hkill⟩,hstop⟩
  have hperm : (!forceRoot && sender.mayNotSignal t.proc n)=false := by grind
  refine ⟨(t.proc.awaitedSignals &&& shiftSignal n).setWidth 32 != 0,?_,?_⟩
  · simp only [Delivery.test,testSignal,hperm,htask,h.live]
    rw [if_neg (by simp),if_neg (by simp),if_neg (by omega),if_neg (by simp),if_neg (by omega),
      Int.toNat_natCast,hblocked]
    simp
  obtain ⟨hk,hz⟩ | ⟨hk,hz⟩ := h.phase
  · rw [hz]
    refine iff_of_false (by simp) fun hw => ?_
    rw [hw.2] at hk
    simp at hk
  · rw [hz,and_shiftSignal ha,(hint n hn).2,decide_eq_true_iff,and_iff_left hk]

section Wakes
variable {t tested marking t' : Task} {set awaited : Sigset} {k : List Activation}

/-- A signal is taken by a scan to come, and where there is none the process is woken for it if it
slept when the sender tested for that, and if the signal is below 32. It then returns with the
lowest signal unless one that is not blocked is pending as well. -/
theorem sigwait_wakes_iff (hk : t.kernel = .signalAwait awaited :: k)
    (hs : sysSigwait t.proc set = some awaited) (hl : t.proc.finished = false)
    (hz : t.proc.awaitedSignals = 0) (d : Delivery) (n : Nat) (hpos : 1 ≤ n) (hn : n < numSignals)
    (ha : hasSignal awaited n) (hd : d.signal = n)
    (earlier : ReflTransGen (Move (Stays k)) t tested)
    (between : ReflTransGen (Move (Stays k)) { tested with proc := (d.test tested.proc).1 } marking)
    (later : ReflTransGen (Move (Arms awaited k)) { marking with proc := d.mark marking.proc } t')
    (hasleep : t'.kernel ≠ .arming awaited :: k) (hm : d.Permitted tested.proc) :
    ∃ wakes, (d.test tested.proc).2 = .ok wakes ∧ hasSignal (d.mark marking.proc).pendingSignals n ∧
      (TakesLowest awaited k t' ∨ wakes ∧ ReturnsLowest awaited k t' ↔
        t'.kernel = .signalAwait awaited :: k ∨
          n < 32 ∧ tested.kernel = .awaiting awaited :: k ∧ t'.proc.pending = 0) := by
  have htested := (sigwaiting_of_call hk hs hl hz).moves earlier
  obtain ⟨wakes,hw,hiff⟩ := htested.tested hpos hn ha d hd hm
  have hmarking := (htested.move (.tests d tested)).moves between
  have h' := (hmarking.move (.marks d marking)).moves
    (ReflTransGen.mono (fun _ _ => Move.mono fun _ => Arms.stays) _ _ later)
  have hpend : hasSignal (d.mark marking.proc).pendingSignals n := by
    simp [Delivery.mark,markPending_eq,hd,hasSignal_shiftSignal (lt_of_hasSignal ha)]
  have hmem : hasSignal (awaited &&& t'.proc.pendingSignals) n := by
    rw [hasSignal_and,ha,hasSignal_of_moves later hpend]
    rfl
  refine ⟨wakes,hw,hpend,?_⟩
  obtain ⟨hk' | hk',-⟩ | ⟨hk',-⟩ := h'.phase
  · exact iff_of_true (.inl (takesLowest hk' hn hmem)) (.inl hk')
  · exact absurd hk' hasleep
  · have ht : ¬TakesLowest awaited k t' := by
      rintro ⟨-,-,_,hs,-⟩
      simp [sigwaits,hk'] at hs
    rw [or_iff_right ht,hiff,returnsLowest_iff hk' hn hmem,and_assoc, or_iff_right (by simp [hk'])]
end Wakes

def waiterFor (n : Nat) : Task :=
  ⟨{ initProcess with blockedSignals := shiftSignal n },⟨77,usr1Args⟩,
    [.signalAwait (shiftSignal n)],[]⟩

def asleepFor (n : Nat) : Task := step (step (waiterFor n) (.run true)) (.run true)

def plainKill (n : Nat) : Delivery := ⟨⟨2,0,0,0⟩,n,false,none⟩

theorem sigwait_wakes_usr1 : let asleep := asleepFor sigUsr1
    let sent := (plainKill sigUsr1).mark ((plainKill sigUsr1).test asleep.proc).1
    ∃ wakes, ((plainKill sigUsr1).test asleep.proc).2 = .ok wakes ∧
      (TakesLowest (shiftSignal sigUsr1) [] { asleep with proc := sent } ∨
        wakes ∧ ReturnsLowest (shiftSignal sigUsr1) [] { asleep with proc := sent }) := by
  have hm : ReflTransGen (Move (Stays [])) (waiterFor sigUsr1) (asleepFor sigUsr1) :=
    .tail (.single (.runs _ (cons_ne_nil _ _))) (.runs _ (cons_ne_nil _ _))
  have hs : sysSigwait (waiterFor sigUsr1).proc (shiftSignal sigUsr1) =
      some (shiftSignal sigUsr1) := by
    decide
  obtain ⟨wakes,hw,-,hiff⟩ := sigwait_wakes_iff rfl hs rfl rfl (plainKill sigUsr1) sigUsr1
    (by decide) (by decide) (by decide) rfl hm .refl .refl nofun ⟨rfl,.inr rfl⟩
  exact ⟨wakes,hw,hiff.2 (.inr ⟨by decide,rfl,by decide⟩)⟩

/-- Signal 33 is awaited and sent, and the waiter sleeps on. It does so, too, for a signal that is
sent after the scan and before the signals are set as awaited. -/
theorem sigwait_sleeps_on : ((asleepFor 33).kernel = [.awaiting (shiftSignal 33)] ∧
      (plainKill 33).Permitted (asleepFor 33).proc ∧
      hasSignal ((plainKill 33).mark (asleepFor 33).proc).pendingSignals 33 ∧
      ((plainKill 33).test (asleepFor 33).proc).2 = .ok false) ∧
    ∃ scanned, Move (Stays []) (waiterFor sigUsr1) scanned ∧
      scanned.kernel = [.arming (shiftSignal sigUsr1)] ∧
      ((plainKill sigUsr1).test scanned.proc).2 = .ok false :=
  ⟨⟨rfl,⟨rfl,.inr rfl⟩,by decide,rfl⟩,_,.runs _ (cons_ne_nil _ _),rfl,rfl⟩
end RazionOS.Kernel.Sys.Signal
