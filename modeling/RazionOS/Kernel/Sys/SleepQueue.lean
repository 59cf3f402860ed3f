import Mathlib.Data.List.Nodup
import Mathlib.Data.List.TakeWhile
import RazionOS.Framework.Loop

/-!
# The sleep queue

Sleepers in the order of their deadlines. An entry of the queue stands for the `sleeper_t` and
the list node that holds it, which are allocated and freed together.
-/

namespace RazionOS.Kernel.Sys.SleepQueue
open Framework Function List Bool Option

/-- `node` and `sleeper` are addresses; `serial` counts the insertions. -/
structure Entry where
  node : Nat
  sleeper : Nat
  process : Nat
  endTick : Nat
  endSubtick : Nat
  isFswait : Int
  serial : Nat

inductive Waited where
  | node (n : Nat)
  | sleeper (address : Nat)
deriving DecidableEq

structure Process where
  nodeWaits : Option (List Waited)
  timeoutNode : Option Nat
  /-- `sleep_node.owner` is the sleep queue. -/
  sleeping : Bool
  timedSleepNode : Option Nat
  ready : Bool
  awokenIndex : Int
  /-- The number of nodes in the last call of `process_wait_nodes`. -/
  waited : Nat

structure World where
  queue : List Entry
  procs : Nat → Process
  serial : Nat
  woken : List Nat

inductive Fault where
  /-- Memory is used or freed after it was freed. -/
  | freed
deriving DecidableEq

def World.setProc (w : World) (p : Nat) (proc : Process) : World :=
  { w with procs := update w.procs p proc }

def World.delete (w : World) (node : Nat) : World :=
  { w with queue := w.queue.filter (·.node≠node) }

def due (seconds subseconds : Nat) (e : Entry) : Bool :=
  e.endTick < seconds || (e.endTick == seconds && e.endSubtick ≤ subseconds)

def insertSleeper (queue : List Entry) (e : Entry) : List Entry :=
  queue.takeWhile (due e.endTick e.endSubtick)++e::queue.dropWhile (due e.endTick e.endSubtick)

def makeProcessReady (w : World) (p : Nat) : Except Fault World := do
  let w ← match (w.procs p).sleeping, (w.procs p).timedSleepNode with
    | true, some node =>
      if w.queue.any (·.node=node) then
        pure ((w.delete node).setProc p { w.procs p with sleeping := false })
      else .error .freed
    | _, _ => pure w
  if (w.procs p).ready then pure w
  else
    let w := w.setProc p { w.procs p with ready := true }
    pure { w with woken := w.woken++[p] }

def awakenFromFswait (w : World) (p : Nat) (index : Int) : Except Fault World := do
  let w ← match (w.procs p).timeoutNode with
    | none => pure w
    | some node =>
      match w.queue.find? (·.node=node) with
      | none => .error .freed
      | some e => pure (if e.isFswait ≠ -1 then w.delete node else w)
  let proc := { w.procs p with awokenIndex := index, nodeWaits := none, timeoutNode := none }
  makeProcessReady (w.setProc p proc) p

def alertNodeLocked (w : World) (p : Nat) (value : Waited) : Except Fault World :=
  match (w.procs p).nodeWaits with
  | none => .ok w
  | some waits => if value∈waits then awakenFromFswait w p (waits.idxOf value) else .ok w

def wake (w : World) (e : Entry) (rest : List Entry) : Except Fault World :=
  if e.isFswait≠0 then
    alertNodeLocked { w with queue := { e with isFswait := -1 }::rest } e.process
      (.sleeper e.sleeper)
  else
    let proc := { w.procs e.process with sleeping := false, timedSleepNode := none }
    let w := w.setProc e.process proc
    if proc.ready then .ok w else makeProcessReady w e.process

def wakeupLoop (seconds subseconds : Nat) : Nat → World → Except Fault World
  | 0, w => .ok w
  | fuel+1, w =>
    match w.queue with
    | [] => .ok w
    | e::rest =>
      if due seconds subseconds e then do
        let w ← wake w e rest
        -- the entry and the head of the queue are freed
        match w.queue with
        | [] => .error .freed
        | head::tail =>
          if head.node=e.node then wakeupLoop seconds subseconds fuel { w with queue := tail }
          else .error .freed
      else .ok w

def wakeupSleepers (w : World) (seconds subseconds : Nat) : Except Fault World :=
  wakeupLoop seconds subseconds w.queue.length w

def Fresh (w : World) (node sleeper : Nat) : Prop :=
  ∀ e∈w.queue, e.node≠node ∧ e.sleeper≠sleeper

instance (w : World) (node sleeper : Nat) : Decidable (Fresh w node sleeper) :=
  inferInstanceAs (Decidable (∀ e∈w.queue, _))

def World.insert (w : World) (e : Entry) : World :=
  { w with queue := insertSleeper w.queue e, serial := w.serial+1 }

/-- `sleep_until` by a running process, which then leaves the processor. -/
def sleepUntil (w : World) (p seconds subseconds node sleeper : Nat) : World :=
  let proc := w.procs p
  if proc.sleeping then w
  else
    (w.insert ⟨node,sleeper,p,seconds,subseconds,0,w.serial⟩).setProc p
      { proc with sleeping := true, timedSleepNode := some node, ready := false }

/-- The registration of `process_wait_nodes`, with `process_timeout_sleep` for a time. -/
def waitNodes (w : World) (p : Nat) (nodes : List Nat) (time : Option (Nat × Nat))
    (node sleeper : Nat) : World :=
  let waits := nodes.map Waited.node
  let proc := { w.procs p with awokenIndex := -1, ready := false, waited := nodes.length }
  match time with
  | none => w.setProc p { proc with nodeWaits := some waits, timeoutNode := none }
  | some (seconds, subseconds) =>
    (w.insert ⟨node,sleeper,p,seconds,subseconds,1,w.serial⟩).setProc p
      { proc with nodeWaits := some (waits++[.sleeper sleeper]), timeoutNode := some node }

inductive Event where
  | sleepUntil (p seconds subseconds node sleeper : Nat)
  | waitNodes (p : Nat) (nodes : List Nat) (time : Option (Nat × Nat)) (node sleeper : Nat)
  | alert (p n : Nat)
  | signal (p : Nat)
  | wakeup (seconds subseconds : Nat)

def eIntr : Int := 4

/-- Only a running process goes to sleep. -/
def step (w : World) : Event → Except Fault World
  | .sleepUntil p seconds subseconds node sleeper =>
    if (w.procs p).ready ∧ Fresh w node sleeper then
      .ok (sleepUntil w p seconds subseconds node sleeper)
    else .ok w
  | .waitNodes p nodes time node sleeper =>
    if (w.procs p).ready ∧ Fresh w node sleeper then .ok (waitNodes w p nodes time node sleeper)
    else .ok w
  | .alert p n => alertNodeLocked w p (.node n)
  | .signal p => if (w.procs p).nodeWaits=none then .ok w else awakenFromFswait w p (-eIntr)
  | .wakeup seconds subseconds => wakeupSleepers w seconds subseconds

def run (w : World) : List Event → Except Fault World
  | [] => .ok w
  | e::events => step w e >>= fun w => run w events

def boot : World := ⟨[],fun _ => ⟨none,none,false,none,true,0,0⟩,0,[]⟩

def Before (a b : Entry) : Prop :=
  a.endTick<b.endTick ∨ a.endTick=b.endTick ∧
    (a.endSubtick<b.endSubtick ∨ a.endSubtick=b.endSubtick ∧ a.serial<b.serial)

theorem Before.due (h : Before a b) (hb : due s ss b=true) : due s ss a=true := by
  simp only [SleepQueue.due,or_eq_true,decide_eq_true_eq,and_eq_true,beq_iff_eq] at hb ⊢
  unfold Before at h
  omega

private theorem dropWhile_due {queue : List Entry} (h : queue.Pairwise Before) :
    queue.dropWhile (due s ss)=queue.filter (fun e => !due s ss e) := by
  induction queue with
  | nil => rfl
  | cons e queue ih =>
    obtain ⟨hh,ht⟩ := pairwise_cons.1 h
    cases hd : due s ss e with
    | true => simp [hd,ih ht]
    | false =>
      have ha : ∀ b∈queue, due s ss b=false := by
        intro b hb
        cases hb' : due s ss b with
        | false => rfl
        | true => exact ((hh b hb).due hb').symm.trans hd
      have hs : queue.filter (fun e => !due s ss e)=queue :=
        filter_eq_self.2 fun b hb => by simp [ha b hb]
      simp [hd,hs]

private theorem insertSleeper_pairwise (h : queue.Pairwise Before)
    (hse : ∀ a∈queue, a.serial<e.serial) : (insertSleeper queue e).Pairwise Before := by
  have hbe : ∀ a∈queue, due e.endTick e.endSubtick a=true → Before a e := by
    intro a ha hdu
    have := hse a ha
    simp only [due,or_eq_true,decide_eq_true_eq,and_eq_true,beq_iff_eq] at hdu
    unfold Before
    omega
  have haf : ∀ a, due e.endTick e.endSubtick a=false → Before e a := by
    intro a hdu
    simp only [due,or_eq_false_iff,decide_eq_false_iff_not,and_eq_false_iff,
      beq_eq_false_iff_ne] at hdu
    unfold Before
    omega
  have hp : (queue.takeWhile (due e.endTick e.endSubtick) ++
      queue.dropWhile (due e.endTick e.endSubtick)).Pairwise Before := by
    rwa [takeWhile_append_dropWhile]
  obtain ⟨hf,hs,hc⟩ := pairwise_append.1 hp
  have hd : ∀ a∈queue.dropWhile (due e.endTick e.endSubtick), Before e a := by
    intro a ha
    rw [dropWhile_due h] at ha
    exact haf a (by simpa using (mem_filter.1 ha).2)
  refine pairwise_append.2 ⟨hf,pairwise_cons.2 ⟨hd,hs⟩,?_⟩
  intro a ha b hb
  obtain rfl | hb := mem_cons.1 hb
  · exact hbe a ((List.takeWhile_prefix _).subset ha) (mem_takeWhile_imp ha)
  · exact hc a ha b hb

private theorem insertSleeper_perm : (insertSleeper queue e).Perm (e::queue) := by
  conv_rhs => rw [← takeWhile_append_dropWhile (p := due e.endTick e.endSubtick) (l := queue)]
  exact perm_middle

def Process.Awake (proc : Process) : Prop :=
  proc.nodeWaits=none ∧ proc.timeoutNode=none ∧ proc.sleeping=false ∧ proc.ready=true

def Process.Waits (proc : Process) : Prop :=
  (∃ nodes : List Nat, proc.nodeWaits=some (nodes.map Waited.node)) ∧ proc.timeoutNode=none ∧
    proc.sleeping=false ∧ proc.ready=false

/-- The process sleeps, and what it refers to is this entry. -/
def Process.RefersTo (proc : Process) (e : Entry) : Prop :=
  proc.ready=false ∧ (e.isFswait=0 ∧ proc.sleeping=true ∧ proc.timedSleepNode=some e.node ∧
        proc.nodeWaits=none ∧ proc.timeoutNode=none ∨
      e.isFswait=1 ∧ proc.sleeping=false ∧ proc.timeoutNode=some e.node ∧
        ∃ nodes : List Nat, proc.nodeWaits=some (nodes.map Waited.node++[.sleeper e.sleeper]) ∧
          proc.waited=nodes.length)

structure Inv (w : World) : Prop where
  sorted : w.queue.Pairwise Before
  serial_lt : ∀ e∈w.queue, e.serial<w.serial
  node_inj : ∀ e∈w.queue, ∀ e' ∈ w.queue, e.node=e'.node → e=e'
  refersTo : ∀ e∈w.queue, (w.procs e.process).RefersTo e
  procs : ∀ p, (w.procs p).Awake ∨ (w.procs p).Waits ∨ ∃ e∈w.queue, e.process=p

private theorem boot_inv : Inv boot := ⟨.nil,nofun,nofun,nofun,fun _ => .inl ⟨rfl,rfl,rfl,rfl⟩⟩

section
variable (h : Inv w)
include h

theorem Inv.process_inj (he : e∈w.queue) (he' : e' ∈ w.queue)
    (heq : e.process=e'.process) : e=e' := by
  have hr := h.refersTo e he
  have hr' := h.refersTo e' he'
  rw [heq] at hr
  refine h.node_inj e he e' he' ?_
  obtain ⟨-,⟨-,hs,ht,-⟩ | ⟨-,hs,ht,-⟩⟩ := hr <;>
    obtain ⟨-,⟨-,hs',ht',-⟩ | ⟨-,hs',ht',-⟩⟩ := hr'
  · exact some.inj (ht.symm.trans ht')
  · exact absurd (hs.symm.trans hs') (by decide)
  · exact absurd (hs.symm.trans hs') (by decide)
  · exact some.inj (ht.symm.trans ht')

theorem Inv.awake (hr : (w.procs p).ready=true) : (w.procs p).Awake ∧ ∀ e∈w.queue, e.process≠p := by
  have hn : ∀ e∈w.queue, e.process≠p := by
    rintro e he rfl
    have := (h.refersTo e he).1
    rw [hr] at this
    cases this
  obtain ha | hw | ⟨e,he,hep⟩ := h.procs p
  · exact ⟨ha,hn⟩
  · have := hw.2.2.2
    rw [hr] at this
    cases this
  · exact absurd hep (hn e he)

theorem Inv.setProc (hn : ∀ e∈w.queue, e.process≠p)
    (hp : proc.Awake ∨ proc.Waits) : Inv (w.setProc p proc) := by
  refine ⟨h.sorted,h.serial_lt,h.node_inj,fun e he => ?_,fun q => ?_⟩
  · simp only [World.setProc,update_of_ne (hn e he)]
    exact h.refersTo e he
  by_cases hq : q=p
  · subst hq
    simp only [World.setProc,update_self]
    exact hp.imp_right .inl
  · simp only [World.setProc,update_of_ne hq]
    exact h.procs q

theorem Inv.insert (hs : e.serial=w.serial) (hf : Fresh w e.node e.sleeper)
    (hn : ∀ a∈w.queue, a.process≠e.process) (hp : proc.RefersTo e) :
    Inv ((w.insert e).setProc e.process proc) := by
  have hmem : ∀ a, a∈insertSleeper w.queue e ↔ a=e ∨ a∈w.queue := fun a => by
    rw [insertSleeper_perm.mem_iff,mem_cons]
  refine ⟨insertSleeper_pairwise h.sorted fun a ha => hs ▸ h.serial_lt a ha,fun a ha => ?_,
    fun a ha b hb hab => ?_,fun a ha => ?_,fun q => ?_⟩
  · obtain rfl | ha := (hmem a).1 ha
    · exact hs ▸ Nat.lt_succ_self _
    · exact Nat.lt_succ_of_lt (h.serial_lt a ha)
  · obtain rfl | hold := (hmem a).1 ha <;> obtain rfl | hold' := (hmem b).1 hb
    · rfl
    · exact absurd hab.symm (hf b hold').1
    · exact absurd hab (hf a hold).1
    · exact h.node_inj a hold b hold' hab
  · obtain rfl | ha := (hmem a).1 ha
    · simpa [World.setProc] using hp
    · simp only [World.setProc,update_of_ne (hn a ha)]
      exact h.refersTo a ha
  · by_cases hq : q=e.process
    · exact .inr (.inr ⟨e,(hmem e).2 (.inl rfl),hq.symm⟩)
    · simp only [World.setProc,update_of_ne hq]
      obtain hq | hq | ⟨a,ha,hap⟩ := h.procs q
      · exact .inl hq
      · exact .inr (.inl hq)
      · exact .inr (.inr ⟨a,(hmem a).2 (.inr ha),hap⟩)

private theorem sleepUntil_inv (hr : (w.procs p).ready=true) (hf : Fresh w node sleeper) :
    Inv (sleepUntil w p seconds subseconds node sleeper) := by
  obtain ⟨⟨hw,ht,hs,-⟩,hn⟩ := h.awake hr
  rw [sleepUntil,hs]
  exact h.insert rfl hf hn
    ⟨rfl,.inl ⟨rfl,rfl,rfl,hw,ht⟩⟩

private theorem waitNodes_inv (hr : (w.procs p).ready=true) (hf : Fresh w node sleeper) :
    Inv (waitNodes w p nodes time node sleeper) := by
  obtain ⟨⟨-,-,hs,-⟩,hn⟩ := h.awake hr
  cases time with
  | none => exact h.setProc hn (.inr ⟨⟨nodes,rfl⟩,rfl,hs,rfl⟩)
  | some time =>
    exact h.insert rfl hf hn
      ⟨rfl,.inr ⟨rfl,hs,rfl,nodes,rfl,rfl⟩⟩

theorem Inv.remove (he : e∈w.queue) (hp : proc.Awake) (queue : List Entry)
    (hsub : queue.Sublist w.queue) (hmem : ∀ a, a∈queue ↔ a∈w.queue ∧ a≠e)
    (woken : List Nat) : Inv ⟨queue,update w.procs e.process proc,w.serial,woken⟩ := by
  have hne : ∀ a∈queue, a.process≠e.process := fun a ha heq =>
    ((hmem a).1 ha).2 (h.process_inj ((hmem a).1 ha).1 he heq)
  refine ⟨h.sorted.sublist hsub,fun a ha => h.serial_lt a (hsub.subset ha),
    fun a ha b hb => h.node_inj a (hsub.subset ha) b (hsub.subset hb),fun a ha => ?_,fun q => ?_⟩
  · simp only [update_of_ne (hne a ha)]
    exact h.refersTo a (hsub.subset ha)
  by_cases hq : q=e.process
  · subst hq
    exact .inl (by simpa using hp)
  simp only [update_of_ne hq]
  obtain hq' | hq' | ⟨a,ha,hap⟩ := h.procs q
  · exact .inl hq'
  · exact .inr (.inl hq')
  refine .inr (.inr ⟨a,(hmem a).2 ⟨ha,?_⟩,hap⟩)
  rintro rfl
  exact hq hap.symm

end

theorem makeProcessReady_eq (hs : (w.procs p).sleeping=false) (hr : (w.procs p).ready=false) :
    makeProcessReady w p = .ok ⟨w.queue,
      update w.procs p { w.procs p with ready := true },w.serial,w.woken++[p]⟩ := by
  simp [makeProcessReady,hs,hr,World.setProc]

def Process.awoken (proc : Process) (index : Int) : Process :=
  { proc with awokenIndex := index, nodeWaits := none, timeoutNode := none, ready := true }

private theorem Inv.find_node (h : Inv w) (he : e∈w.queue) :
    w.queue.find? (·.node=e.node)=some e := by
  cases hf : w.queue.find? (·.node=e.node) with
  | none => simpa using find?_eq_none.1 hf e he
  | some e' =>
    have hn : e'.node=e.node := by simpa using find?_some hf
    rw [h.node_inj e' (mem_of_find?_eq_some hf) e he hn]

theorem awakenFromFswait_inv (h : Inv w) (hw : (w.procs p).nodeWaits≠none) :
    ∃ w', awakenFromFswait w p index = .ok w' ∧ Inv w' ∧
      w'.procs=update w.procs p ((w.procs p).awoken index) ∧
      w'.queue=w.queue.filter (fun e => e.process≠p) := by
  obtain haw | ⟨-,hti,hsl,hr⟩ | ⟨e,he,rfl⟩ := h.procs p
  · exact absurd haw.1 hw
  · have hno : ∀ e∈w.queue, e.process≠p := by
      rintro e he rfl
      obtain ⟨-,⟨-,hs,-⟩ | ⟨-,-,ht,-⟩⟩ := h.refersTo e he
      · exact absurd (hsl.symm.trans hs) (by decide)
      · exact absurd (hti.symm.trans ht) (by simp)
    have hinv : Inv (w.setProc p ((w.procs p).awoken index)) :=
      h.setProc hno (.inl ⟨rfl,rfl,hsl,rfl⟩)
    refine ⟨⟨w.queue,update w.procs p _,w.serial,
      w.woken++[p]⟩,?_,⟨hinv.1,hinv.2,hinv.3,hinv.4,hinv.5⟩,rfl,?_⟩
    · simp only [awakenFromFswait,hti]
      rw [pure_bind,makeProcessReady_eq] <;>
        simp [World.setProc,hsl,hr,Process.awoken]
    · exact (filter_eq_self.2 fun e he => by simpa using hno e he).symm
  · obtain ⟨hr,⟨-,-,-,hno,-⟩ | ⟨hf,hsl,hti,-⟩⟩ := h.refersTo e he
    · exact absurd hno hw
    have hmem : ∀ a∈w.queue, a.node=e.node ↔ a.process=e.process := fun a ha =>
      ⟨fun hn => h.node_inj a ha e he hn ▸ rfl,fun hp => h.process_inj ha he hp ▸ rfl⟩
    have hq : w.queue.filter (fun a => a.node≠e.node) =
        w.queue.filter (fun a => a.process≠e.process) :=
      filter_congr fun a ha => by simp [hmem a ha]
    have haw : ((w.procs e.process).awoken index).Awake := ⟨rfl,rfl,hsl,rfl⟩
    have hinv := h.remove he haw (w.queue.filter (fun a => a.process≠e.process))
      filter_sublist (fun a => by
        rw [mem_filter,and_congr_right_iff]
        intro ha
        simp only [decide_eq_true_eq]
        exact not_congr ⟨fun hp => h.process_inj ha he hp,fun heq => heq ▸ rfl⟩)
      (w.woken++[e.process])
    refine ⟨_,?_,hinv,rfl,rfl⟩
    simp only [awakenFromFswait,hti,h.find_node he,hf]
    rw [pure_bind,makeProcessReady_eq]
    · simp only [World.setProc,World.delete,update_self,update_idem,hq]
      rfl
    · simpa [World.setProc,World.delete] using hsl
    · simpa [World.setProc,World.delete] using hr

private theorem alertNodeLocked_inv (h : Inv w) :
    ∃ w', alertNodeLocked w p value = .ok w' ∧ Inv w' := by
  rw [alertNodeLocked]
  cases hwa : (w.procs p).nodeWaits with
  | none => exact ⟨w,rfl,h⟩
  | some waits =>
    simp only
    split
    · have hs : (w.procs p).nodeWaits≠none := by simp [hwa]
      obtain ⟨w',hw',hinv,-⟩ := awakenFromFswait_inv h hs
      exact ⟨w',hw',hinv⟩
    · exact ⟨w,rfl,h⟩

/-- The process of an entry whose time has come, with the number of its nodes as the index. -/
def Process.timedOut (proc : Process) (e : Entry) : Process :=
  if e.isFswait=0 then { proc with sleeping := false, timedSleepNode := none, ready := true }
  else proc.awoken proc.waited

def World.pop (w : World) (e : Entry) (rest : List Entry) : World :=
  ⟨rest,update w.procs e.process ((w.procs e.process).timedOut e),w.serial,w.woken++[e.process]⟩

private theorem wake_eq (h : Inv w) (hq : w.queue=e::rest) : ∃ head, head.node=e.node ∧
      wake w e rest = .ok { w.pop e rest with queue := head::rest } := by
  have he := hq ▸ mem_cons_self
  obtain ⟨hr,⟨hk,-,-⟩ | ⟨hk,hs,ht,nodes,hw,hc⟩⟩ := h.refersTo e he
  · refine ⟨e,rfl,?_⟩
    simp only [wake,hr]
    rw [makeProcessReady_eq]
    · simp [World.setProc,World.pop,Process.timedOut,hk,hq]
    · simp [World.setProc]
    · simp [World.setProc]
  have hi : (nodes.map Waited.node++[Waited.sleeper e.sleeper]).idxOf
      (Waited.sleeper e.sleeper)=nodes.length := by
    rw [idxOf_append_of_notMem (by simp),idxOf_cons_self,length_map]
    rfl
  simp only [wake,alertNodeLocked,hw,hi,awakenFromFswait,ht,find?_cons]
  simp only [decide_true]
  rw [pure_bind,makeProcessReady_eq]
  · simp [World.setProc,World.pop,Process.timedOut,Process.awoken,hk,hc]
  · simpa [World.setProc] using hs
  · simpa [World.setProc] using hr

private theorem pop_inv (h : Inv w) (hq : w.queue=e::rest) : Inv (w.pop e rest) := by
  have he := hq ▸ mem_cons_self
  have hn : e∉rest := by
    intro hmem
    have hs := h.sorted
    rw [hq] at hs
    have := (pairwise_cons.1 hs).1 e hmem
    unfold Before at this
    omega
  have hp : ((w.procs e.process).timedOut e).Awake := by
    obtain ⟨-,⟨hk,-,-,hw,ht⟩ | ⟨hk,hsl,-⟩⟩ := h.refersTo e he
    · rw [Process.timedOut,if_pos hk]
      exact ⟨hw,ht,rfl,rfl⟩
    · rw [Process.timedOut,if_neg (by omega)]
      exact ⟨rfl,rfl,hsl,rfl⟩
  refine h.remove he hp rest (hq ▸ sublist_cons_self e rest) (fun a => ?_) _
  rw [hq,mem_cons]
  constructor
  · intro ha
    exact ⟨.inr ha,fun heq => hn (heq ▸ ha)⟩
  · rintro ⟨rfl | ha,hne⟩
    · exact absurd rfl hne
    · exact ha

structure Wakes (w w' : World) (seconds subseconds : Nat) : Prop where
  queue_eq : w'.queue=w.queue.filter fun e => !due seconds subseconds e
  woken_eq : w'.woken=w.woken++(w.queue.filter (due seconds subseconds)).map Entry.process
  once : ((w.queue.filter (due seconds subseconds)).map Entry.process).Nodup
  timedOut : ∀ e∈w.queue, due seconds subseconds e=true →
    w'.procs e.process=(w.procs e.process).timedOut e
  others : ∀ p, (∀ e∈w.queue, due seconds subseconds e=true → e.process≠p) → w'.procs p=w.procs p

private theorem Inv.process_nodup (h : Inv w) : (w.queue.map Entry.process).Nodup := by
  refine (nodup_map_iff_inj_on ?_).2 fun e he e' he' heq => h.process_inj he he' heq
  refine h.sorted.imp fun {a b} hab heq => ?_
  subst heq
  unfold Before at hab
  omega

private theorem wakes_self (h : ∀ e∈w.queue, due seconds subseconds e=false) :
    Wakes w w seconds subseconds := by
  have hf : w.queue.filter (due seconds subseconds)=[] :=
    filter_eq_nil_iff.2 fun e he => by simp [h e he]
  refine ⟨(filter_eq_self.2 fun e he => by simp [h e he]).symm,by simp [hf],
    by simp [hf],fun e he hd => ?_,fun _ _ => rfl⟩
  rw [h e he] at hd
  cases hd

private theorem Inv.wakes_pop (h : Inv w) (hq : w.queue=e::rest)
    (hd : due seconds subseconds e=true)
    (hw : Wakes (w.pop e rest) w' seconds subseconds) : Wakes w w' seconds subseconds := by
  have he := hq ▸ mem_cons_self
  have hnd := h.process_nodup
  rw [hq,map_cons,nodup_cons] at hnd
  have hne : ∀ a∈rest, a.process≠e.process := fun a ha heq =>
    hnd.1 (heq ▸ mem_map_of_mem ha)
  refine ⟨?_,?_,?_,fun a ha had => ?_,fun p hp => ?_⟩
  · rw [hw.queue_eq,hq]
    simp [World.pop,hd]
  · rw [hw.woken_eq,hq]
    simp [World.pop,hd]
  · exact h.process_nodup.sublist (filter_sublist.map _)
  · rw [hq] at ha
    obtain rfl | ha := mem_cons.1 ha
    · rw [hw.others _ fun b hb _ => hne b hb]
      simp [World.pop]
    · rw [hw.timedOut a ha had]
      simp [World.pop,hne a ha]
  · have hpe := (hp e he hd).symm
    rw [hw.others p fun a ha => hp a (hq ▸ mem_cons_of_mem e ha)]
    simp [World.pop,hpe]

theorem wakeupLoop_spec (h : Inv w) (hf : w.queue.length≤fuel) :
    ∃ w', wakeupLoop seconds subseconds fuel w = .ok w' ∧ Inv w' ∧
      Wakes w w' seconds subseconds := by
  induction fuel generalizing w with
  | zero =>
    have hni := eq_nil_of_length_eq_zero (Nat.le_zero.1 hf)
    exact ⟨w,rfl,h,wakes_self (by simp [hni])⟩
  | succ fuel ih =>
    cases hq : w.queue with
    | nil =>
      refine ⟨w,?_,h,wakes_self (by simp [hq])⟩
      simp [wakeupLoop,hq]
    | cons e rest =>
      cases hd : due seconds subseconds e with
      | false =>
        -- the entries behind are not due either
        refine ⟨w,by simp [wakeupLoop,hq,hd],h,wakes_self fun a ha => ?_⟩
        have hs := h.sorted
        rw [hq] at ha hs
        obtain rfl | ha := mem_cons.1 ha
        · exact hd
        cases ha' : due seconds subseconds a with
        | false => rfl
        | true => exact (((pairwise_cons.1 hs).1 a ha).due ha').symm.trans hd
      | true =>
        obtain ⟨head,hn,hw⟩ := wake_eq h hq
        rw [hq] at hf
        obtain ⟨w',hl,hinv,hwa⟩ := ih (pop_inv h hq) (Nat.le_of_succ_le_succ hf)
        refine ⟨w',?_,hinv,h.wakes_pop hq hd hwa⟩
        simp only [wakeupLoop,hq,hd,hw]
        exact (if_pos hn).trans hl

private theorem step_inv (h : Inv w) : ∃ w', step w e = .ok w' ∧ Inv w' := by
  cases e with
  | sleepUntil p seconds subseconds node sleeper =>
    rw [step]
    split
    · rename_i hg
      exact ⟨_,rfl,sleepUntil_inv h hg.1 hg.2⟩
    · exact ⟨w,rfl,h⟩
  | waitNodes p nodes time node sleeper =>
    rw [step]
    split
    · rename_i hg
      exact ⟨_,rfl,waitNodes_inv h hg.1 hg.2⟩
    · exact ⟨w,rfl,h⟩
  | alert p n => exact alertNodeLocked_inv h
  | signal p =>
    rw [step]
    split
    · exact ⟨w,rfl,h⟩
    rename_i hwa
    obtain ⟨w',hw',hinv,-⟩ := awakenFromFswait_inv h hwa
    exact ⟨w',hw',hinv⟩
  | wakeup seconds subseconds =>
    obtain ⟨w',hw',hinv,-⟩ := wakeupLoop_spec h le_rfl
    exact ⟨w',hw',hinv⟩

private theorem run_inv (h : Inv w) : ∃ w', run w events = .ok w' ∧ Inv w' := by
  induction events generalizing w with
  | nil => exact ⟨w,rfl,h⟩
  | cons e events ih =>
    obtain ⟨w1,hs,hinv⟩ := step_inv h
    obtain ⟨w',hr,hinv'⟩ := ih hinv
    exact ⟨w',by rw [run,hs]; exact hr,hinv'⟩

/-- References are to entries in the queue, each by the process that the entry would wake. -/
structure Referenced (w : World) : Prop where
  timeoutNode : ∀ p node, (w.procs p).timeoutNode=some node →
    ∃ e∈w.queue, e.node=node ∧ e.process=p ∧ e.isFswait=1
  timedSleepNode : ∀ p node, (w.procs p).sleeping=true → (w.procs p).timedSleepNode=some node →
      ∃ e∈w.queue, e.node=node ∧ e.process=p ∧ e.isFswait=0
  nodeWaits : ∀ p waits sleeper, (w.procs p).nodeWaits=some waits →
    Waited.sleeper sleeper∈waits → ∃ e∈w.queue, e.sleeper=sleeper ∧ e.process=p
  entries : ∀ e∈w.queue, (w.procs e.process).RefersTo e

private theorem Inv.referenced (h : Inv w) : Referenced w := by
  refine ⟨fun p node hp => ?_,fun p node hs hp => ?_,fun p waits sleeper hw hmem => ?_,h.refersTo⟩
  · obtain ha | hwa | ⟨e,he,rfl⟩ := h.procs p
    · exact absurd (ha.2.1.symm.trans hp) (by simp)
    · exact absurd (hwa.2.1.symm.trans hp) (by simp)
    · obtain ⟨-,⟨-,-,-,-,hnon⟩ | ⟨hk,-,hn,-⟩⟩ := h.refersTo e he
      · exact absurd (hnon.symm.trans hp) (by simp)
      · exact ⟨e,he,some.inj (hn.symm.trans hp),rfl,hk⟩
  · obtain ha | hwa | ⟨e,he,rfl⟩ := h.procs p
    · exact absurd (ha.2.2.1.symm.trans hs) (by simp)
    · exact absurd (hwa.2.2.1.symm.trans hs) (by simp)
    · obtain ⟨-,⟨hk,-,hn,-⟩ | ⟨-,ha,-⟩⟩ := h.refersTo e he
      · exact ⟨e,he,some.inj (hn.symm.trans hp),rfl,hk⟩
      · exact absurd (ha.symm.trans hs) (by simp)
  · obtain ha | hwa | ⟨e,he,rfl⟩ := h.procs p
    · exact absurd (ha.1.symm.trans hw) (by simp)
    · obtain ⟨nodes,hno⟩ := hwa.1
      obtain rfl := some.inj (hno.symm.trans hw)
      simp at hmem
    · obtain ⟨-,⟨-,-,-,hnon,-⟩ | ⟨-,-,-,nodes,hno,-⟩⟩ := h.refersTo e he
      · exact absurd (hnon.symm.trans hw) (by simp)
      · obtain rfl := some.inj (hno.symm.trans hw)
        refine ⟨e,he,?_,rfl⟩
        simpa [eq_comm] using hmem

/-- No sequence of calls touches freed memory. Then the queue is in order, all references are good,
and the next call of `wakeup_sleepers` wakes exactly those that are due. -/
theorem sleepQueue_correct (events : List Event) :
    ∃ w, run boot events = .ok w ∧ w.queue.Pairwise Before ∧ Referenced w ∧
      ∀ seconds subseconds, ∃ w', wakeupSleepers w seconds subseconds = .ok w' ∧
        Wakes w w' seconds subseconds := by
  obtain ⟨w,hr,hinv⟩ := run_inv boot_inv
  refine ⟨w,hr,hinv.sorted,hinv.referenced,fun seconds subseconds => ?_⟩
  obtain ⟨w',hw',-,hwa⟩ := wakeupLoop_spec hinv le_rfl
  exact ⟨w',hw',hwa⟩
end RazionOS.Kernel.Sys.SleepQueue
