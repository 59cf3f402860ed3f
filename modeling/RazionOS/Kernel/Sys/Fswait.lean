import Mathlib.Data.List.Basic

/-!
# Waiting for pipes

`process_wait_nodes` of one process beside writers that put data into pipes and then alert the
waiters of the pipe. The readiness scan is outside the lock that the registration takes. A step
is one check, one registration, one deposit, or one round of a writer's loop over the waiters.
-/

namespace RazionOS.Kernel.Sys.Fswait
open Function List Option

inductive Phase where
  | idle
  /-- The scan, with the nodes that it has not checked. -/
  | checking (nodes rest : List Nat) (timeout : Int)
  /-- Under `sleep_lock`, with the nodes that it has not registered for. -/
  | registering (nodes rest : List Nat) (timeout : Int)
  | asleep (nodes : List Nat) (timeout : Int)
  | returned (index : Int)
deriving DecidableEq

inductive Writer where
  | idle
  /-- Before it takes the next waiter. -/
  | alerting (pipe : Nat)
  /-- Before `process_alert_node` for the waiter that it took. -/
  | delivering (pipe process : Nat)
deriving DecidableEq

structure World where
  unread : Nat → Nat
  alertWaiters : Nat → List Nat
  writers : Nat → Writer
  phase : Phase
  /-- The process's list of the pipes it waits for, while it has one. -/
  nodeWaits : Option (List Nat)

def self : Nat := 0

inductive Event where
  | call (nodes : List Nat) (timeout : Int)
  | check
  | register
  | timer
  | signal
  | deposit (writer pipe count : Nat)
  | alert (writer : Nat)
  | deliver (writer : Nat)
  | drain (pipe count : Nat)
  | otherWaits (pipe process : Nat)

def eIntr : Int := 4

def check (w : World) : World :=
  match w.phase with
  | .checking nodes (pipe::rest) timeout =>
    if 0<w.unread pipe then { w with phase := .returned (nodes.length-rest.length-1 : Nat) }
    else { w with phase := .checking nodes rest timeout }
  | .checking nodes [] timeout =>
    if timeout=0 then { w with phase := .returned nodes.length }
    else { w with phase := .registering nodes nodes timeout, nodeWaits := some [] }
  | _ => w

def addWaiter (waiters : List Nat) (process : Nat) : List Nat :=
  if process∈waiters then waiters else waiters++[process]

def register (w : World) : World :=
  match w.phase, w.nodeWaits with
  | .registering nodes (pipe::rest) timeout, some waits =>
    { w with
      phase := .registering nodes rest timeout
      alertWaiters := update w.alertWaiters pipe (addWaiter (w.alertWaiters pipe) self)
      nodeWaits := some (waits++[pipe]) }
  | .registering nodes [] timeout, _ => { w with phase := .asleep nodes timeout }
  | _, _ => w

def awaken (w : World) (index : Int) : World :=
  { w with phase := .returned index, nodeWaits := none }

/-- `process_alert_node` for this process. It needs the lock, so it waits for a registration. -/
def alertNode (w : World) (pipe : Nat) : World :=
  match w.nodeWaits with
  | none => w
  | some waits => if pipe∈waits then awaken w (waits.idxOf pipe) else w

def Phase.isRegistering : Phase → Bool
  | .registering .. => true
  | _ => false

def setWriter (w : World) (writer : Nat) (state : Writer) : World :=
  { w with writers := update w.writers writer state }

def step (w : World) : Event → World
  | .call nodes timeout =>
    match w.phase with
    | .idle | .returned _ => { w with phase := .checking nodes nodes timeout }
    | _ => w
  | .check => check w
  | .register => register w
  | .timer =>
    match w.phase with
    | .asleep nodes timeout => if 0<timeout then awaken w nodes.length else w
    | _ => w
  | .signal =>
    match w.phase with
    | .asleep .. => awaken w (-eIntr)
    | _ => w
  | .deposit writer pipe count =>
    if w.writers writer = .idle then
      setWriter { w with unread := update w.unread pipe (w.unread pipe + count) } writer
        (.alerting pipe)
    else w
  | .alert writer =>
    match w.writers writer with
    | .alerting pipe =>
      match w.alertWaiters pipe with
      | [] => setWriter w writer .idle
      | process::rest =>
        setWriter { w with alertWaiters := update w.alertWaiters pipe rest } writer
          (.delivering pipe process)
    | _ => w
  | .deliver writer =>
    match w.writers writer with
    | .delivering pipe process =>
      if w.phase.isRegistering then w
      else
        setWriter (if process=self then alertNode w pipe else w) writer (.alerting pipe)
    | _ => w
  | .drain pipe count =>
    { w with unread := update w.unread pipe (w.unread pipe - count) }
  | .otherWaits pipe process =>
    let waiters := addWaiter (w.alertWaiters pipe) process
    if process=self then w
    else { w with alertWaiters := update w.alertWaiters pipe waiters }

def run (w : World) (events : List Event) : World := events.foldl step w
def boot : World := ⟨fun _ => 0,fun _ => [],fun _ => .idle,.idle,none⟩

def Writer.pipe : Writer → Option Nat
  | .idle => none
  | .alerting pipe | .delivering pipe _ => some pipe

/-- A writer will come to this process with an alert for the pipe. -/
def AlertDue (w : World) (pipe : Nat) : Prop :=
  ∃ writer, w.writers writer = .delivering pipe self ∨
    (w.writers writer).pipe=some pipe ∧ self∈w.alertWaiters pipe

/-- The process does not sleep on a pipe with data unless an alert for it is due. -/
def NoLostWakeup (w : World) : Prop :=
  ∀ nodes timeout, w.phase = .asleep nodes timeout → ∀ pipe∈nodes, 0<w.unread pipe → AlertDue w pipe

/-- Before a registration: if the pipe has data, a writer is still going through its waiters. -/
def Timely (w : World) : Event → Prop
  | .register =>
    match w.phase with
    | .registering _ (pipe::_) _ =>
      0<w.unread pipe → ∃ writer, (w.writers writer).pipe=some pipe
    | _ => True
  | _ => True

def TimelyRun (w : World) : List Event → Prop
  | [] => True
  | e::events => Timely w e ∧ TimelyRun (step w e) events

/-- For a pipe on its list the process is among the waiters or already taken from there. -/
def Announced (w : World) (pipe : Nat) : Prop :=
  self∈w.alertWaiters pipe ∨ ∃ writer, w.writers writer = .delivering pipe self

/-- The pipes on the list are those that the process has registered for. -/
def PhaseOk : Phase → Option (List Nat) → Prop
  | .registering nodes rest _, waits => ∃ done, waits=some done ∧ nodes=done++rest
  | .asleep nodes _, waits => waits=some nodes
  | _, waits => waits=none

structure Inv (w : World) : Prop where
  phase : PhaseOk w.phase w.nodeWaits
  announced : ∀ waits, w.nodeWaits=some waits → ∀ pipe∈waits, Announced w pipe
  due : ∀ waits, w.nodeWaits=some waits → ∀ pipe∈waits, 0<w.unread pipe → AlertDue w pipe

private theorem boot_inv : Inv boot := ⟨rfl,nofun,nofun⟩

private theorem Inv.noLostWakeup (h : Inv w) : NoLostWakeup w := by
  intro nodes timeout hp pipe hpi hr
  have hw := h.phase
  rw [hp] at hw
  exact h.due nodes hw pipe hpi hr

section Steps
variable {w w' : World}

theorem Inv.of_none (hp : PhaseOk w.phase none) (hw : w.nodeWaits=none) : Inv w where
  phase := hw ▸ hp
  announced waits h := by
    rw [hw] at h
    cases h
  due waits h := by
    rw [hw] at h
    cases h

private theorem awaken_inv : Inv (awaken w index) := .of_none rfl rfl

theorem Inv.others (h : Inv w) (hph : w'.phase=w.phase) (hwa : w'.nodeWaits=w.nodeWaits)
    (ha : ∀ waits, w.nodeWaits=some waits → ∀ pipe∈waits, Announced w pipe → Announced w' pipe)
    (hd : ∀ waits, w.nodeWaits=some waits → ∀ pipe∈waits, Announced w pipe →
      (0<w.unread pipe → AlertDue w pipe) → 0<w'.unread pipe → AlertDue w' pipe) : Inv w' where
  phase := by
    rw [hph,hwa]
    exact h.phase
  announced waits hw pipe hp := by
    rw [hwa] at hw
    exact ha waits hw pipe hp (h.announced waits hw pipe hp)
  due waits hw pipe hp := by
    rw [hwa] at hw
    exact hd waits hw pipe hp (h.announced waits hw pipe hp) (h.due waits hw pipe hp)

theorem writers_setWriter_of_ne (h : other≠writer) :
    (setWriter w writer state).writers other=w.writers other :=
  update_of_ne h _ _

theorem writers_setWriter : (setWriter w writer state).writers writer=state := update_self ..

theorem delivering_setWriter (hw : w'.writers=w.writers)
    (hwr : w.writers writer ≠ .delivering q self) (ht : w.writers t = .delivering q self) :
    (setWriter w' writer state).writers t = .delivering q self := by
  have hne : t≠writer := by
    rintro rfl
    exact hwr ht
  rw [writers_setWriter_of_ne hne,hw,ht]

private theorem deposit_inv (h : Inv w) (count : Nat) :
    Inv (step w (.deposit writer pipe count)) := by
  rw [step]
  split
  swap
  · exact h
  rename_i hi
  have hw : ∀ q, w.writers writer ≠ .delivering q self := by simp [hi]
  refine h.others rfl rfl (fun waits _ q _ => ?_) fun waits _ q _ ha hd hr => ?_
  · rintro (hmem | ⟨t,ht⟩)
    · exact .inl hmem
    · exact .inr ⟨t,delivering_setWriter rfl (hw q) ht⟩
  by_cases hq : q=pipe
  · subst hq
    obtain hmem | ⟨t,ht⟩ := ha
    · exact ⟨writer,.inr ⟨by rw [writers_setWriter]; rfl,hmem⟩⟩
    · exact ⟨t,.inl (delivering_setWriter rfl (hw q) ht)⟩
  simp only [setWriter,update_of_ne hq] at hr
  obtain ⟨t,ht⟩ := hd hr
  have hne : t≠writer := by
    rintro rfl
    simp [hi,Writer.pipe] at ht
  refine ⟨t,?_⟩
  rw [writers_setWriter_of_ne hne]
  exact ht

private theorem alert_inv (h : Inv w) : Inv (step w (.alert writer)) := by
  rw [step]
  cases hwr : w.writers writer with
  | alerting pipe =>
    have hn : ∀ q, w.writers writer ≠ .delivering q self := by simp [hwr]
    have hp : ∀ {t q}, (w.writers t).pipe=some q → q≠pipe → t≠writer := by
      rintro t q ht hq rfl
      simp only [hwr,Writer.pipe,some.injEq] at ht
      exact hq ht.symm
    simp only
    cases hw : w.alertWaiters pipe with
    | nil =>
      refine h.others rfl rfl (fun waits _ q _ => ?_) fun waits _ q _ _ hd hr => ?_
      · rintro (hmem | ⟨t,ht⟩)
        · exact .inl hmem
        · exact .inr ⟨t,delivering_setWriter rfl (hn q) ht⟩
      obtain ⟨t,ht | ⟨ht,hmem⟩⟩ := hd hr
      · exact ⟨t,.inl (delivering_setWriter rfl (hn q) ht)⟩
      have hq : q≠pipe := by
        rintro rfl
        rw [hw] at hmem
        cases hmem
      exact ⟨t,.inr ⟨(congrArg _ (writers_setWriter_of_ne (hp ht hq))).trans ht,hmem⟩⟩
    | cons process rest =>
      refine h.others rfl rfl (fun waits _ q _ => ?_) fun waits _ q _ _ hd hr => ?_
      · rintro (hmem | ⟨t,ht⟩)
        · by_cases hq : q=pipe
          · subst hq
            rw [hw] at hmem
            obtain hs | hmem := mem_cons.1 hmem
            · exact .inr ⟨writer,by rw [writers_setWriter,hs]⟩
            · exact .inl (by simpa [setWriter] using hmem)
          · exact .inl (by simpa [setWriter,hq] using hmem)
        · exact .inr ⟨t,delivering_setWriter rfl (hn q) ht⟩
      · obtain ⟨t,ht | ⟨ht,hmem⟩⟩ := hd hr
        · exact ⟨t,.inl (delivering_setWriter rfl (hn q) ht)⟩
        by_cases hq : q=pipe
        · subst hq
          rw [hw] at hmem
          obtain hs | hmem := mem_cons.1 hmem
          · exact ⟨writer,.inl (by rw [writers_setWriter,hs])⟩
          · refine ⟨writer,.inr ⟨by rw [writers_setWriter]; rfl,?_⟩⟩
            simpa [setWriter] using hmem
        · refine ⟨t,.inr ⟨(congrArg _ (writers_setWriter_of_ne (hp ht hq))).trans ht,?_⟩⟩
          simpa [setWriter,hq] using hmem
  | _ => exact h

private theorem deliver_inv (h : Inv w) : Inv (step w (.deliver writer)) := by
  rw [step]
  cases hwr : w.writers writer with
  | delivering pipe process =>
    simp only
    split
    · exact h
    -- the alert ends the sleep or is not for a pipe that the process waits for
    have hk : (process=self → ∀ waits, w.nodeWaits=some waits → pipe∉waits) →
        Inv (setWriter w writer (.alerting pipe)) := by
      intro hf
      have hn : ∀ {q waits}, w.nodeWaits=some waits → q∈waits →
          w.writers writer ≠ .delivering q self := by
        rintro q waits hwa hq ht
        rw [hwr,Writer.delivering.injEq] at ht
        exact hf ht.2 waits hwa (ht.1 ▸ hq)
      refine h.others rfl rfl (fun waits hwa q hq => ?_) fun waits hwa q hq _ hd hr => ?_
      · rintro (hmem | ⟨t,ht⟩)
        · exact .inl hmem
        · exact .inr ⟨t,delivering_setWriter rfl (hn hwa hq) ht⟩
      obtain ⟨t,ht | ⟨ht,hmem⟩⟩ := hd hr
      · exact ⟨t,.inl (delivering_setWriter rfl (hn hwa hq) ht)⟩
      refine ⟨t,.inr ⟨?_,hmem⟩⟩
      by_cases hne : t=writer
      · subst hne
        rw [writers_setWriter]
        rwa [hwr] at ht
      · rw [writers_setWriter_of_ne hne]
        exact ht
    by_cases hs : process=self
    · rw [if_pos hs,alertNode]
      cases hwa : w.nodeWaits with
      | none => exact hk fun _ waits hw => by rw [hwa] at hw; cases hw
      | some waits =>
        simp only
        split
        · exact .of_none rfl rfl
        rename_i hp
        refine hk fun _ waits' hw => ?_
        rw [hwa,some.injEq] at hw
        exact hw ▸ hp
    · rw [if_neg hs]
      exact hk fun heq => absurd heq hs
  | _ => exact h

private theorem drain_inv (h : Inv w) (count : Nat) : Inv (step w (.drain pipe count)) := by
  refine h.others rfl rfl (fun _ _ _ _ => id) fun waits _ q _ _ hd hr => hd ?_
  simp only [step] at hr
  by_cases hq : q=pipe
  · subst hq
    rw [update_self] at hr
    omega
  · rwa [update_of_ne hq] at hr

theorem AlertDue.mono_waiters (h : AlertDue w pipe) (hw : w'.writers=w.writers)
    (hsub : ∀ q, w.alertWaiters q ⊆ w'.alertWaiters q) : AlertDue w' pipe := by
  obtain ⟨t,ht | ⟨ht,hmem⟩⟩ := h
  · exact ⟨t,.inl (hw ▸ ht)⟩
  · exact ⟨t,.inr ⟨hw ▸ ht,hsub pipe hmem⟩⟩

theorem Announced.mono_waiters (h : Announced w pipe) (hw : w'.writers=w.writers)
    (hsub : ∀ q, w.alertWaiters q ⊆ w'.alertWaiters q) : Announced w' pipe := by
  obtain hmem | ⟨t,ht⟩ := h
  · exact .inl (hsub pipe hmem)
  · exact .inr ⟨t,hw ▸ ht⟩

private theorem mem_addWaiter : process∈addWaiter waiters process := by
  rw [addWaiter]
  split
  · assumption
  · exact mem_append_right _ (mem_singleton.2 rfl)

theorem subset_addWaiter (f : Nat → List Nat) (pipe process q : Nat) :
    f q ⊆ update f pipe (addWaiter (f pipe) process) q := by
  by_cases hq : q=pipe
  · subst hq
    rw [update_self,addWaiter]
    split
    · exact List.Subset.refl _
    · exact subset_append_left _ _
  · rw [update_of_ne hq]
    exact List.Subset.refl _

private theorem otherWaits_inv (h : Inv w) : Inv (step w (.otherWaits pipe process)) := by
  simp only [step]
  split
  · exact h
  have hsub := subset_addWaiter w.alertWaiters pipe process
  exact h.others rfl rfl (fun _ _ _ _ ha => ha.mono_waiters rfl hsub)
    fun _ _ _ _ _ hd hr => (hd hr).mono_waiters rfl hsub

private theorem register_inv (h : Inv w) (hti : Timely w .register) : Inv (register w) := by
  rw [register]
  cases hp : w.phase with
  | registering nodes rest timeout =>
    have hok := h.phase
    rw [hp] at hok
    obtain ⟨done,hwa,rfl⟩ := hok
    cases rest with
    | nil =>
      refine ⟨?_,h.announced,h.due⟩
      simp [PhaseOk,hwa]
    | cons pipe rest =>
      simp only [hwa]
      have hsub := subset_addWaiter w.alertWaiters pipe self
      have hs : self∈update w.alertWaiters pipe (addWaiter (w.alertWaiters pipe) self) pipe := by
        rw [update_self]
        exact mem_addWaiter
      refine ⟨⟨done++[pipe],rfl,by simp⟩,fun waits hw q hq => ?_,fun waits hw q hq hr => ?_⟩
      · obtain rfl := some.inj hw
        obtain hq | hq := mem_append.1 hq
        · exact (h.announced done hwa q hq).mono_waiters rfl hsub
        · obtain rfl := mem_singleton.1 hq
          exact .inl hs
      · obtain rfl := some.inj hw
        obtain hq | hq := mem_append.1 hq
        · exact (h.due done hwa q hq hr).mono_waiters rfl hsub
        obtain rfl := mem_singleton.1 hq
        simp only [Timely,hp] at hti
        obtain ⟨t,ht⟩ := hti hr
        exact ⟨t,.inr ⟨ht,hs⟩⟩
  | _ => exact h

private theorem check_inv (h : Inv w) : Inv (check w) := by
  have hok := h.phase
  rw [check]
  cases hp : w.phase with
  | checking nodes rest timeout =>
    rw [hp] at hok
    cases rest with
    | cons pipe rest =>
      simp only
      split
      · exact .of_none rfl hok
      · exact .of_none rfl hok
    | nil =>
      simp only
      split
      · exact .of_none rfl hok
      refine ⟨⟨[],rfl,rfl⟩,fun waits hw => ?_,fun waits hw => ?_⟩
      · obtain rfl := some.inj hw
        nofun
      · obtain rfl := some.inj hw
        nofun
  | _ => exact h

private theorem step_inv (h : Inv w) (he : Timely w e) : Inv (step w e) := by
  cases e with
  | call nodes timeout =>
    have hok := h.phase
    rw [step]
    cases hp : w.phase with
    | idle | returned index =>
      rw [hp] at hok
      exact .of_none rfl hok
    | _ => exact h
  | check => exact check_inv h
  | register => exact register_inv h he
  | timer =>
    rw [step]
    cases w.phase with
    | asleep nodes timeout =>
      simp only
      split
      · exact awaken_inv
      · exact h
    | _ => exact h
  | signal =>
    rw [step]
    cases w.phase with
    | asleep nodes timeout => exact awaken_inv
    | _ => exact h
  | deposit writer pipe count => exact deposit_inv h count
  | alert writer => exact alert_inv h
  | deliver writer => exact deliver_inv h
  | drain pipe count => exact drain_inv h count
  | otherWaits pipe process => exact otherWaits_inv h

private theorem run_inv (h : Inv w) (he : TimelyRun w events) : Inv (run w events) := by
  induction events generalizing w with
  | nil => exact h
  | cons e events ih => exact ih (step_inv h he.1) he.2
end Steps

/-- In a run with timely registrations no wake-up is lost. -/
theorem fswait_no_lost_wakeup {events : List Event} (h : TimelyRun boot events) :
    NoLostWakeup (run boot events) :=
  (run_inv boot_inv h).noLostWakeup

/-- The process sleeps on pipe 5, a writer puts a byte there and is about to alert it. -/
theorem fswait_no_lost_wakeup_alert :
    (run boot [.call [5] 1, .check, .check, .register, .register, .deposit 1 5 1]).phase =
        .asleep [5] 1 ∧
      NoLostWakeup (run boot [.call [5] 1, .check, .check, .register, .register, .deposit 1 5 1]) :=
  ⟨rfl,fswait_no_lost_wakeup
    ⟨trivial,trivial,trivial,fun h => absurd h (by decide),trivial,trivial,trivial⟩⟩

/-- An alert before the registration goes to nobody, and the process sleeps on a pipe with data. -/
theorem fswait_lost_wakeup :
    ¬ NoLostWakeup (run boot [.call [5] (-1), .check, .deposit 1 5 1, .alert 1, .check, .register,
      .register]) := by
  intro h
  obtain ⟨writer,hw⟩ := h [5] (-1) rfl 5 (by decide) (by decide)
  have hi : (run boot [.call [5] (-1), .check, .deposit 1 5 1, .alert 1, .check, .register,
      .register]).writers writer = .idle := by
    simp [run,step,check,register,boot,setWriter]
  simp [hi,Writer.pipe] at hw
end RazionOS.Kernel.Sys.Fswait
