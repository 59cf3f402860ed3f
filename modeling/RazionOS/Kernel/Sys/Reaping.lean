import RazionOS.Framework.Runs
import RazionOS.Kernel.Sys.Waitpid

/-!
# Reaping

The threads of a process call `waitpid` while its children run, stop and exit. The candidate is
chosen under the lock of the calling thread only, and is read and deleted after that.
-/

namespace RazionOS.Kernel.Reaping
open Framework Waitpid Function List Option

def eIntr : Int := 4
def eChild : Int := 10

inductive Pc where
  | idle
  | entered (pid : Int) (options : Options)
  | asleep (pid : Int) (options : Options)
  | chosen (candidate : Nat) (isParent : Bool)
  /-- The candidate is finished; it is deleted once it does not run. -/
  | reaping (candidate : Nat) (status : BitVec 32)
deriving DecidableEq

def Pc.held : Pc → Option Nat
  | .chosen c _ => some c
  | .reaping c _ => some c
  | _ => none

/-- The value, the status that was read, and the finished child that was returned. -/
structure Return where
  thread : Nat
  value : Int
  status : Option (BitVec 32)
  reaped : Option Nat
deriving DecidableEq

structure State where
  procs : Nat → Process
  nextPid : Nat
  leader : Nat
  /-- The children of the tree entry of the leader, its other threads among them. -/
  children : List Nat
  pc : Nat → Pc
  deletes : List Nat
  returns : List Return
  /-- The processes that `waitpid` has looked at after they had been deleted. -/
  touched : List Nat

def start (leader : Nat) (job : Int) : State :=
  { procs := fun id => newProcess id job 0 false
    nextPid := leader+1
    leader := leader
    children := []
    pc := fun _ => .idle
    deletes := []
    returns := []
    touched := [] }

namespace State

variable (s : State)

def setProc (id : Nat) (p : Process) : State := { s with procs := update s.procs id p }
def setPc (t : Nat) (pc : Pc) : State := { s with pc := update s.pc t pc }

def touch (ids : List Nat) : State :=
  { s with touched := s.touched++ids.filter fun id => (s.procs id).deleted }

def finish (t : Nat) (value : Int) (status : Option (BitVec 32)) (reaped : Option Nat) : State :=
  { s.setPc t .idle with returns := s.returns++[⟨t,value,status,reaped⟩] }

def live (t : Nat) : Bool :=
  t < s.nextPid && (s.procs t).process == s.leader && !(s.procs t).finished
end State

/-- The tree entry and the entry of the process list are taken, if there is still one. -/
def processDelete (c : Nat) (s : State) : State :=
  let s := { s with deletes := s.deletes++[c] }
  if (s.procs c).deleted then s
  else { s.setProc c { s.procs c with deleted := true } with children := s.children.erase c }

def scan (t : Nat) (pid : Int) (options : Options) (s : State) : State :=
  let found := findCandidate s.procs t pid options s.children
  let s := s.touch found.seen
  if found.hasChildren then
    match found.candidate with
    | some (c, isParent) => s.setPc t (.chosen c isParent)
    | none => if options.nohang then s.finish t 0 none none else s.setPc t (.asleep pid options)
  else s.finish t (-eChild) none none

/-- What it does with the candidate after that, up to the loop for `PROC_FLAG_RUNNING`. -/
def collect (t c : Nat) (isParent : Bool) (s : State) : State :=
  let s := s.touch [c]
  let status := (s.procs c).status
  if isParent then
    let s := s.setProc c { s.procs c with status := status &&& ~~~0xFF }
    if (s.procs c).finished then s.setPc t (.reaping c status) else s.finish t c status none
  else if (s.procs c).tracer≠t then
    State.finish { s with procs := ptraceUntrace t c s.procs } t c status none
  else s.finish t c status none

/-- The loop is left when the candidate does not run. -/
def reap (t c : Nat) (status : BitVec 32) (s : State) : State :=
  let s := s.touch [c]
  if (s.procs c).running then s else (processDelete c s).finish t c status (some c)

inductive Event where
  /-- A thread of the process or a child is created. -/
  | fork (thread : Bool) (job : Int) (tasklet : Bool)
  /-- A process elsewhere in the tree is created. -/
  | spawn (job : Int) (tasklet : Bool)
  /-- A process elsewhere in the tree becomes a child, of init. -/
  | adopt (c : Nat)
  | call (t : Nat) (pid : Int) (options : Options)
  | scan (t : Nat)
  | wake (t : Nat) (interrupted : Bool)
  | collect (t : Nat)
  | reap (t : Nat)
  | attach (t c : Nat)
  | run (c : Nat) (running : Bool)
  | stop (c : Nat) (status : BitVec 32)
  | resume (c : Nat)
  | exit (c : Nat) (retval : BitVec 32)

def State.free (s : State) (c : Nat) : Bool :=
  c < s.nextPid && !(s.procs c).finished && s.pc c == .idle

def step (s : State) : Event → State
  | .fork thread job tasklet =>
    let id := s.nextPid
    let p := newProcess (if thread then s.leader else id) job 0 tasklet
    { s.setProc id p with nextPid := id+1, children := s.children++[id] }
  | .spawn job tasklet =>
    let id := s.nextPid
    { s.setProc id (newProcess id job 0 tasklet) with nextPid := id+1 }
  | .adopt c =>
    if c < s.nextPid ∧ c≠s.leader ∧ (s.procs c).deleted=false ∧ c∉s.children then
      { s with children := s.children++[c] }
    else s
  | .call t pid options =>
    if s.live t && s.pc t == .idle then s.setPc t (.entered pid options) else s
  | .scan t =>
    match s.pc t with
    | .entered pid options => Reaping.scan t pid options s
    | _ => s
  | .wake t interrupted =>
    match s.pc t with
    | .asleep pid options =>
      if interrupted then s.finish t (-eIntr) none none else s.setPc t (.entered pid options)
    | _ => s
  | .collect t =>
    match s.pc t with
    | .chosen c isParent => Reaping.collect t c isParent s
    | _ => s
  | .reap t =>
    match s.pc t with
    | .reaping c status => Reaping.reap t c status s
    | _ => s
  | .attach t c =>
    if s.live t && c < s.nextPid && !(s.procs c).deleted then
      { s with procs := ptraceTrace t c s.procs }
    else s
  | .run c running =>
    if running && (s.procs c).finished then s else s.setProc c { s.procs c with running }
  | .stop c status =>
    if s.free c then s.setProc c { s.procs c with suspended := true, status } else s
  | .resume c => s.setProc c { s.procs c with suspended := false }
  | .exit c retval =>
    if s.free c && c != s.leader then { s with procs := taskExit c retval s.procs } else s

def State.Valid (s : State) (c : Nat) : Prop := c < s.nextPid ∧ (s.procs c).deleted=false

structure Inv (s : State) : Prop where
  fresh : ∀ c, s.nextPid ≤ c → (s.procs c).deleted=false
  nodup : s.children.Nodup
  children : ∀ c∈s.children, s.Valid c
  tracees : ∀ t, ∀ c∈(s.procs t).tracees, s.Valid c
  held : ∀ t c, (s.pc t).held=some c → s.Valid c
  deletes : ∀ c, s.deletes.count c=if (s.procs c).deleted then 1 else 0
  returns : ∀ c, s.returns.countP (·.reaped == some c)=s.deletes.count c
  touched : s.touched=[]

section Inv
variable {s s' : State}

private theorem start_inv : Inv (start leader job) where
  fresh _ _ := rfl
  nodup := .nil
  children _ h := absurd h not_mem_nil
  tracees _ _ h := absurd h not_mem_nil
  held _ c h := absurd h.symm (some_ne_none c)
  deletes _ := rfl
  returns _ := rfl
  touched := rfl

/-- The states differ in nothing that is deleted, returned as reaped or touched, and the children
are the same. -/
structure Same (s s' : State) : Prop where
  deleted : ∀ c, (s'.procs c).deleted=(s.procs c).deleted
  nextPid : s'.nextPid=s.nextPid
  children : s'.children=s.children
  deletes : s'.deletes=s.deletes
  returns : ∀ c, s'.returns.countP (·.reaped == some c)=s.returns.countP (·.reaped == some c)
  touched : s'.touched=s.touched

theorem Same.inv (h : Same s s') (hinv : Inv s) (ht : ∀ t, ∀ c∈(s'.procs t).tracees, s.Valid c)
    (hh : ∀ t c, (s'.pc t).held=some c → s.Valid c) : Inv s' := by
  have hv : ∀ c, s.Valid c → s'.Valid c := by
    intro c hc
    rw [State.Valid,h.nextPid,h.deleted]
    exact hc
  refine ⟨?_,?_,?_,?_,?_,?_,?_,h.touched.trans hinv.touched⟩
  · intro c hc
    rw [h.nextPid] at hc
    rw [h.deleted]
    exact hinv.fresh c hc
  · rw [h.children]
    exact hinv.nodup
  · rw [h.children]
    exact fun c hc => hv c (hinv.children c hc)
  · exact fun t c hc => hv c (ht t c hc)
  · exact fun t c hc => hv c (hh t c hc)
  · intro c
    rw [h.deletes,h.deleted]
    exact hinv.deletes c
  · intro c
    rw [h.returns,h.deletes]
    exact hinv.returns c

theorem setPc_inv (h : Inv s) (hpc : ∀ c, pc.held=some c → s.Valid c) : Inv (s.setPc t pc) := by
  have hs : Same s (s.setPc t pc) := ⟨fun _ => rfl,rfl,rfl,rfl,fun _ => rfl,rfl⟩
  refine hs.inv h h.tracees ?_
  intro t' c hc
  simp only [State.setPc,update_apply] at hc
  split at hc
  · exact hpc c hc
  · exact h.held t' c hc

theorem setProcs_inv (h : Inv s) (hd : ∀ c, (procs c).deleted=(s.procs c).deleted)
    (ht : ∀ t, ∀ c∈(procs t).tracees, s.Valid c) : Inv { s with procs } := by
  have hs : Same s { s with procs } := ⟨hd,rfl,rfl,rfl,fun _ => rfl,rfl⟩
  exact hs.inv h ht h.held

theorem setProc_inv (h : Inv s) (id : Nat) (hd : p.deleted=(s.procs id).deleted)
    (ht : ∀ c∈p.tracees, s.Valid c) : Inv (s.setProc id p) := by
  refine setProcs_inv h (update_field _ hd) ?_
  intro t c hc
  rw [update_apply] at hc
  split at hc
  · exact ht c hc
  · exact h.tracees t c hc

theorem touch_eq (hi : ∀ c∈ids, s.Valid c) : s.touch ids=s := by
  have hf : ids.filter (fun id => (s.procs id).deleted)=[] := by
    rw [filter_eq_nil_iff]
    intro c hc
    rw [(hi c hc).2]
    exact Bool.false_ne_true
  rw [State.touch,hf,append_nil]

theorem touch_singleton (hc : s.Valid c) : s.touch [c]=s :=
  touch_eq fun _ hc' => mem_singleton.mp hc' ▸ hc

theorem finish_inv (h : Inv s) : Inv (s.finish t value status none) := by
  have hi : Inv (s.setPc t .idle) := setPc_inv h fun c hc => absurd hc.symm
    (some_ne_none c)
  have hs : Same (s.setPc t .idle) (s.finish t value status none) := by
    refine ⟨fun _ => rfl,rfl,rfl,rfl,?_,rfl⟩
    intro c
    exact countP_append.trans (Nat.add_zero _)
  exact hs.inv hi hi.tracees hi.held

private theorem scan_inv (h : Inv s) : Inv (scan t pid options s) := by
  have hs : ∀ c∈(findCandidate s.procs t pid options s.children).seen, s.Valid c := by
    intro c hc
    rcases findCandidate_seen hc with hch | ht
    · exact h.children c hch
    · exact h.tracees t c ht
  rw [scan]
  simp only [touch_eq hs]
  split
  · split
    · rename_i c isParent hca
      refine setPc_inv h ?_
      intro c' hc'
      obtain rfl := some.inj hc'
      rcases findCandidate_candidate hca with ⟨-,hch,-⟩ | ⟨-,ht,-⟩
      · exact h.children c hch
      · exact h.tracees t c ht
    · split
      · exact finish_inv h
      · exact setPc_inv h fun c hc => absurd hc.symm (some_ne_none c)
  · exact finish_inv h

private theorem ptraceUntrace_inv (h : Inv s) : Inv { s with procs := ptraceUntrace t c s.procs } :=
  setProc_inv h t rfl fun c' hc' => h.tracees t c' (mem_of_mem_erase hc')

private theorem collect_inv (h : Inv s) (hpc : s.pc t = .chosen c isParent) :
    Inv (collect t c isParent s) := by
  have hc := h.held t c (congrArg Pc.held hpc)
  rw [collect]
  simp only [touch_singleton hc]
  split
  · have hs : Inv (s.setProc c { s.procs c with
        status := (s.procs c).status &&& ~~~0xFF }) := setProc_inv h c rfl (h.tracees c)
    split
    · refine setPc_inv hs ?_
      intro c' hc'
      obtain rfl := some.inj hc'
      refine ⟨hc.1,?_⟩
      simp only [State.setProc,update_self]
      exact hc.2
    · exact finish_inv hs
  · split
    · exact finish_inv (ptraceUntrace_inv h)
    · exact finish_inv h

/-- A child may be deleted when no other call has it and nobody lists it as a tracee. -/
def Alone (s : State) (t c : Nat) : Prop :=
  (∀ t', t' ≠ t → (s.pc t').held≠some c) ∧ ∀ t', c∉(s.procs t').tracees

private theorem reap_inv (h : Inv s) (hpc : s.pc t = .reaping c status)
    (ha : (s.procs c).running=false → Alone s t c) : Inv (reap t c status s) := by
  have hc := h.held t c (congrArg Pc.held hpc)
  rw [reap]
  simp only [touch_singleton hc]
  split
  · exact h
  rename_i hru
  obtain ⟨hh,htr⟩ := ha (Bool.eq_false_iff.mpr hru)
  have hde : processDelete c s = { s.setProc c { s.procs c with deleted := true } with
        deletes := s.deletes++[c], children := s.children.erase c } := by
    rw [processDelete,if_neg (Bool.eq_false_iff.mp hc.2)]
    rfl
  rw [hde]
  generalize hs' : State.finish _ t c status (some c)=s'
  have hnp : s'.nextPid=s.nextPid := hs' ▸ rfl
  have hch : s'.children=s.children.erase c := hs' ▸ rfl
  have hd : s'.deletes=s.deletes++[c] := hs' ▸ rfl
  have hr : s'.returns=s.returns++[⟨t,c,status,some c⟩] := hs' ▸ rfl
  have hdel : ∀ c', (s'.procs c').deleted =
      if c' = c then true else (s.procs c').deleted := by
    intro c'
    subst hs'
    simp only [State.finish,State.setPc,State.setProc,update_apply]
    split <;> rfl
  have hv : ∀ c', c' ≠ c → s.Valid c' → s'.Valid c' := by
    intro c' hne hc'
    rw [State.Valid,hnp,hdel,if_neg hne]
    exact hc'
  refine ⟨?_,?_,?_,?_,?_,?_,?_,?_⟩
  · intro c' hc'
    rw [hnp] at hc'
    have hne : c' ≠ c := Nat.ne_of_gt (Nat.lt_of_lt_of_le hc.1 hc')
    rw [hdel,if_neg hne]
    exact h.fresh c' hc'
  · rw [hch]
    exact h.nodup.erase c
  · intro c' hc'
    rw [hch] at hc'
    obtain ⟨hne,hmem⟩ := h.nodup.mem_erase_iff.mp hc'
    exact hv c' hne (h.children c' hmem)
  · intro t' c' hc'
    have hc' : c' ∈ (s.procs t').tracees := by
      subst hs'
      simp only [State.finish,State.setPc,State.setProc,update_apply] at hc'
      split at hc'
      · rename_i ht'
        exact ht' ▸ hc'
      · exact hc'
    exact hv c' (fun hne => htr t' (hne ▸ hc')) (h.tracees t' c' hc')
  · intro t' c' hc'
    have hpc' : s'.pc t' = if t' = t then .idle else s.pc t' := by
      subst hs'
      exact update_apply ..
    rw [hpc'] at hc'
    split at hc'
    · exact absurd hc'.symm (some_ne_none c')
    · rename_i ht'
      exact hv c' (fun hne => hh t' ht' (hne ▸ hc')) (h.held t' c' hc')
  · intro c'
    rw [hd,count_append,h.deletes,hdel]
    by_cases hne : c' = c
    · simp [hne,hc.2]
    · simp [hne,Ne.symm]
  · intro c'
    rw [hd,hr,countP_append,h.returns]
    simp [count_cons]
  · exact hs' ▸ h.touched

private theorem spawn_inv (h : Inv s) (process : Nat) (job : Int) (tasklet : Bool) :
    Inv { s.setProc s.nextPid (newProcess process job 0 tasklet) with nextPid := s.nextPid+1 } := by
  generalize hs' : State.mk _ _ _ _ _ _ _ _=s'
  have hp : s'.procs=update s.procs s.nextPid (newProcess process job 0 tasklet) := hs' ▸ rfl
  have hnp : s'.nextPid=s.nextPid+1 := hs' ▸ rfl
  have hch : s'.children=s.children := hs' ▸ rfl
  have hpc : s'.pc=s.pc := hs' ▸ rfl
  have hd : ∀ c, (s'.procs c).deleted=(s.procs c).deleted := by
    intro c
    rw [hp,update_apply]
    split
    · rename_i hc
      rw [hc,h.fresh _ (Nat.le_refl _)]
      rfl
    · rfl
  have hv : ∀ c, s.Valid c → s'.Valid c := by
    intro c hc
    rw [State.Valid,hnp,hd]
    exact ⟨Nat.lt_succ_of_lt hc.1,hc.2⟩
  refine ⟨?_,?_,?_,?_,?_,?_,hs' ▸ h.returns,hs' ▸ h.touched⟩
  · intro c hc
    rw [hnp] at hc
    rw [hd]
    exact h.fresh c (Nat.le_of_succ_le hc)
  · rw [hch]
    exact h.nodup
  · rw [hch]
    exact fun c hc => hv c (h.children c hc)
  · intro t c hc
    rw [hp,update_apply] at hc
    split at hc
    · exact absurd hc not_mem_nil
    · exact hv c (h.tracees t c hc)
  · intro t c hc
    rw [hpc] at hc
    exact hv c (h.held t c hc)
  · intro c
    rw [hd]
    exact hs' ▸ h.deletes c

private theorem adopt_inv (h : Inv s) (hv : s.Valid c) (hc : c∉s.children) :
    Inv { s with children := s.children++[c] } := by
  refine ⟨h.fresh,?_,?_,h.tracees,h.held,h.deletes,h.returns,h.touched⟩
  · rw [nodup_append]
    refine ⟨h.nodup,pairwise_singleton _ c,?_⟩
    intro a ha b hb heq
    rw [mem_singleton.mp hb] at heq
    exact hc (heq ▸ ha)
  · intro c' hc'
    rcases mem_append.mp hc' with hold | hn
    · exact h.children c' hold
    · rw [mem_singleton.mp hn]
      exact hv

private theorem attach_inv (h : Inv s) (t : Nat) (hc : s.Valid c) :
    Inv { s with procs := ptraceTrace t c s.procs } := by
  have ht : Inv (s.setProc t { s.procs t with
      tracees := if c∈(s.procs t).tracees then (s.procs t).tracees
        else (s.procs t).tracees++[c] }) := by
    refine setProc_inv h t rfl ?_
    intro c' hc'
    split at hc'
    · exact h.tracees t c' hc'
    rcases mem_append.mp hc' with hold | hn
    · exact h.tracees t c' hold
    · rw [mem_singleton.mp hn]
      exact hc
  exact setProc_inv ht c rfl (ht.tracees c)

private theorem exit_inv (h : Inv s) (c : Nat) (retval : BitVec 32) :
    Inv { s with procs := taskExit c retval s.procs } :=
  setProcs_inv h (fun _ => taskExit_fields.1) fun t _ hc =>
    h.tracees t _ (mem_taskExit_tracees hc)

def Usable (s : State) : Event → Prop
  | .reap t => ∀ c status, s.pc t = .reaping c status → (s.procs c).running=false → Alone s t c
  | _ => True

private theorem step_inv (e : Event) (h : Inv s) (hu : Usable s e) : Inv (step s e) := by
  cases e with
  | fork thread job tasklet =>
    have hs := spawn_inv h (if thread then s.leader else s.nextPid) job tasklet
    refine adopt_inv hs ⟨Nat.lt_succ_self _,?_⟩ ?_
    · simp only [State.setProc,update_self]
      rfl
    · intro hmem
      exact Nat.lt_irrefl _ (h.children _ hmem).1
  | spawn job tasklet => exact spawn_inv h _ job tasklet
  | adopt c =>
    rw [step]
    split
    · rename_i hc
      exact adopt_inv h ⟨hc.1,hc.2.2.1⟩ hc.2.2.2
    · exact h
  | call t pid options =>
    rw [step]
    split
    · exact setPc_inv h fun c hc => absurd hc.symm (some_ne_none c)
    · exact h
  | scan t =>
    rw [step]
    split
    · exact scan_inv h
    · exact h
  | wake t interrupted =>
    rw [step]
    split
    · split
      · exact finish_inv h
      · exact setPc_inv h fun c hc => absurd hc.symm (some_ne_none c)
    · exact h
  | collect t =>
    rw [step]
    split
    · rename_i hpc
      exact collect_inv h hpc
    · exact h
  | reap t =>
    rw [step]
    split
    · rename_i hpc
      exact reap_inv h hpc (hu _ _ hpc)
    · exact h
  | attach t c =>
    rw [step]
    split
    · rename_i hc
      simp only [Bool.and_eq_true,decide_eq_true_eq,Bool.not_eq_true'] at hc
      exact attach_inv h t ⟨hc.1.2,hc.2⟩
    · exact h
  | run c running =>
    rw [step]
    split
    · exact h
    · exact setProc_inv h c rfl (h.tracees c)
  | stop c status =>
    rw [step]
    split
    · exact setProc_inv h c rfl (h.tracees c)
    · exact h
  | resume c => exact setProc_inv h c rfl (h.tracees c)
  | exit c retval =>
    rw [step]
    split
    · exact exit_inv h c retval
    · exact h
end Inv

/-- An event of a process in which only the leader waits and nobody traces. -/
def Event.Plain (leader : Nat) : Event → Prop
  | .call t _ _ => t=leader
  | .attach _ _ => False
  | _ => True

structure Quiet (leader : Nat) (s : State) : Prop where
  idle : ∀ t, t≠leader → s.pc t = .idle
  tracees : ∀ t, (s.procs t).tracees=[]

section
variable (h : Quiet leader s)
include h

theorem Quiet.setPc (pc : Pc) : Quiet leader (s.setPc leader pc) := by
  refine ⟨?_,h.tracees⟩
  intro t ht
  exact (update_of_ne ht _ _).trans (h.idle t ht)

theorem Quiet.finish (value : Int) (status : Option (BitVec 32)) (reaped : Option Nat) :
    Quiet leader (s.finish leader value status reaped) :=
  ⟨(h.setPc .idle).idle,h.tracees⟩

theorem Quiet.setProc (id : Nat) (hp : p.tracees=[]) : Quiet leader (s.setProc id p) := by
  refine ⟨h.idle,?_⟩
  intro t
  simp only [State.setProc,update_apply]
  split
  · exact hp
  · exact h.tracees t

theorem Quiet.leader_of_ne (ht : s.pc t ≠ .idle) : t=leader := by
  by_contra hne
  exact ht (h.idle t hne)

private theorem scan_quiet : Quiet leader (scan leader pid options s) := by
  have ht : Quiet leader (s.touch (findCandidate s.procs leader pid options s.children).seen) :=
    ⟨h.idle,h.tracees⟩
  rw [scan]
  split
  · split
    · exact ht.setPc _
    · split
      · exact ht.finish _ _ _
      · exact ht.setPc _
  · exact ht.finish _ _ _

private theorem collect_quiet : Quiet leader (collect leader c isParent s) := by
  have ht : Quiet leader (s.touch [c]) := ⟨h.idle,h.tracees⟩
  simp only [collect]
  split
  · have hs : Quiet leader ((s.touch [c]).setProc c { (s.touch [c]).procs c with
        status := ((s.touch [c]).procs c).status &&& ~~~0xFF }) := ht.setProc c (h.tracees c)
    split
    · exact hs.setPc _
    · exact hs.finish _ _ _
  · split
    · refine Quiet.finish (ht.setProc leader ?_) _ _ _
      rw [ht.tracees]
      rfl
    · exact ht.finish _ _ _

private theorem reap_quiet : Quiet leader (reap leader c status s) := by
  have ht : Quiet leader (s.touch [c]) := ⟨h.idle,h.tracees⟩
  have hd : Quiet leader (processDelete c (s.touch [c])) := by
    rw [processDelete]
    split
    · exact ⟨h.idle,h.tracees⟩
    · have hsp := ht.setProc c (p := { s.procs c with deleted := true }) (h.tracees c)
      exact ⟨hsp.idle,hsp.tracees⟩
  rw [reap]
  split
  · exact ht
  · exact hd.finish _ _ _

private theorem spawn_quiet (process : Nat) (job : Int) (tasklet : Bool) :
    Quiet leader (s.setProc s.nextPid (newProcess process job 0 tasklet)) := h.setProc _ rfl

end

private theorem step_quiet (h : Quiet leader s) (he : e.Plain leader) :
    Quiet leader (step s e) := by
  cases e with
  | fork thread job tasklet =>
    have hs := spawn_quiet h (if thread then s.leader else s.nextPid) job tasklet
    exact ⟨hs.idle,hs.tracees⟩
  | spawn job tasklet =>
    have hs := spawn_quiet h s.nextPid job tasklet
    exact ⟨hs.idle,hs.tracees⟩
  | adopt c =>
    rw [step]
    split
    · exact ⟨h.idle,h.tracees⟩
    · exact h
  | call t pid options =>
    obtain rfl : t=leader := he
    rw [step]
    split
    · exact h.setPc _
    · exact h
  | scan t =>
    rw [step]
    split
    · rename_i hpc
      obtain rfl := h.leader_of_ne (t := t) (by simp [hpc])
      exact scan_quiet h
    · exact h
  | wake t interrupted =>
    rw [step]
    split
    · rename_i hpc
      obtain rfl := h.leader_of_ne (t := t) (by simp [hpc])
      split
      · exact h.finish _ _ _
      · exact h.setPc _
    · exact h
  | collect t =>
    rw [step]
    split
    · rename_i hpc
      obtain rfl := h.leader_of_ne (t := t) (by simp [hpc])
      exact collect_quiet h
    · exact h
  | reap t =>
    rw [step]
    split
    · rename_i hpc
      obtain rfl := h.leader_of_ne (t := t) (by simp [hpc])
      exact reap_quiet h
    · exact h
  | attach t c => exact absurd he id
  | run c running =>
    rw [step]
    split
    · exact h
    · exact h.setProc c (h.tracees c)
  | stop c status =>
    rw [step]
    split
    · exact h.setProc c (h.tracees c)
    · exact h
  | resume c => exact h.setProc c (h.tracees c)
  | exit c retval =>
    rw [step]
    split
    · refine ⟨h.idle,?_⟩
      intro t
      rw [eq_nil_iff_forall_not_mem]
      intro c' hc'
      have hmem := mem_taskExit_tracees hc'
      rw [h.tracees] at hmem
      exact not_mem_nil hmem
    · exact h

private theorem Quiet.usable (h : Quiet leader s) : Usable s e := by
  cases e with
  | reap t =>
    intro c status hpc _
    obtain rfl := h.leader_of_ne (t := t) (by simp [hpc])
    refine ⟨?_,?_⟩
    · intro t' ht'
      rw [h.idle t' ht']
      exact (some_ne_none c).symm
    · intro t'
      rw [h.tracees]
      exact not_mem_nil
  | _ => trivial

/-- A process with one waiting thread and without tracees is always safe. -/
theorem along_usable_of_plain
    (h : ∀ e∈events, e.Plain leader) : Along step Usable (start leader job) events := by
  have hr : ∀ s, Quiet leader s → Along step Usable s events := by
    induction events with
    | nil => exact fun _ _ => trivial
    | cons e events ih =>
      intro s hs
      refine ⟨hs.usable,ih (fun e' he' => h e' (mem_cons_of_mem _ he')) _ ?_⟩
      exact step_quiet hs (h e mem_cons_self)
  exact hr _ ⟨fun _ _ => rfl,fun _ => rfl⟩

/-- Each finished child is returned and deleted once, and not looked at after that. -/
structure Reaped (s : State) : Prop where
  returned : ∀ c, s.returns.countP (·.reaped == some c)≤1
  deletes : ∀ c, s.deletes.count c=s.returns.countP (·.reaped == some c)
  deleted : ∀ c, (s.procs c).deleted=true ↔ c∈s.deletes
  touched : s.touched=[]

private theorem Inv.reaped (h : Inv s) : Reaped s := by
  refine ⟨?_,fun c => (h.returns c).symm,?_,h.touched⟩
  · intro c
    rw [h.returns,h.deletes]
    split <;> omega
  · intro c
    rw [← count_pos_iff,h.deletes]
    cases (s.procs c).deleted with
    | false => simp
    | true => simp

theorem single_reaping (leader : Nat) (job : Int) (events : List Event)
    (h : Along step Usable (start leader job) events) :
    Reaped (events.foldl step (start leader job)) :=
  (h.inv (fun _ e hinv hu => step_inv e hinv hu) start_inv).reaped

def noOptions : Options := ⟨false,false,false,false⟩

theorem single_reaping_one : Reaped ([.fork false 1 false, .fork false 1 false, .exit 3 256,
    .call 1 (-1) noOptions, .scan 1, .collect 1, .reap 1].foldl step (start 1 1)) := by
  refine single_reaping 1 1 _ (along_usable_of_plain ?_)
  simp [Event.Plain]

/-- Two threads that both find the child finished, and a parent that traces its child. -/
theorem reaped_twice :
    ¬Reaped ([.fork true 1 false, .fork false 1 false, .exit 3 256, .call 1 (-1) noOptions,
      .call 2 (-1) noOptions, .scan 1, .scan 2, .collect 1, .collect 2, .reap 1, .reap 2].foldl
        step (start 1 1)) ∧
    ¬Reaped ([.fork false 1 false, .attach 1 2, .exit 2 256, .call 1 (-1) noOptions, .scan 1,
      .collect 1, .reap 1, .call 1 (-1) noOptions, .scan 1].foldl step (start 1 1)) := by
  constructor
  · intro h
    have hr := h.returned 3
    revert hr
    decide +kernel
  · intro h
    have ht := h.touched
    revert ht
    decide +kernel
end RazionOS.Kernel.Reaping
