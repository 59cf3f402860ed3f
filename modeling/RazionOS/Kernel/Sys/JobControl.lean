import Mathlib.Algebra.Order.Ring.Int
import RazionOS.Kernel.Sys.Credentials

/-! # Process groups and sessions -/

namespace RazionOS.Kernel.JobControl

def eInval : Int := 22
def eSrch : Int := 3

structure Process where
  tgid : Int
  job : Int
  session : Int
deriving DecidableEq

structure Table where
  process : Int → Option Process
  nextPid : Int

def Table.set (t : Table) (id : Int) (p : Process) : Table :=
  { t with process := fun id' => if id' = id then some p else t.process id' }

def spawnInit : Table := ⟨fun id => if id=1 then some ⟨1,1,1⟩ else none,2⟩

def processFromPid (pid : Int) (t : Table) : Option Process :=
  if pid<0 then none else t.process pid

def getNextPid (t : Table) : Int × Table :=
  (t.nextPid, { t with nextPid := Int.bmod (t.nextPid+1) (2^32) })

def fork (parent : Process) (t : Table) : Int × Table :=
  let (id, t) := getNextPid t
  (id, t.set id ⟨id,parent.job,parent.session⟩)

def sysSetsid (me : Int) (current : Process) (t : Table) : Int × Table :=
  if current.job=current.tgid then (-ePerm, t)
  else (current.tgid, t.set me ⟨current.tgid,current.tgid,current.tgid⟩)

def sysSetpgid (me : Int) (current : Process) (pid pgid : Int) (t : Table) : Int × Table :=
  if pgid<0 then (-eInval, t)
  else
    let target := if pid=0 then me else pid
    match if pid=0 then some current else processFromPid pid t with
    | none => (-eSrch, t)
    | some proc =>
      if proc.session≠current.session ∨ proc.session=proc.tgid then (-ePerm, t)
      else if pgid=0 then (0, t.set target { proc with job := proc.tgid })
      else
        match processFromPid pgid t with
        | none => (-ePerm, t)
        | some pgroup =>
          if pgroup.session≠proc.session then (-ePerm, t)
          else (0, t.set target { proc with job := pgid })

inductive Call where
  | fork
  | setsid
  | setpgid (pid pgid : Int)
deriving DecidableEq

def step (me : Int) (current : Process) (call : Call) (t : Table) : Int × Table :=
  match call with
  | .fork => fork current t
  | .setsid => sysSetsid me current t
  | .setpgid pid pgid => sysSetpgid me current pid pgid t

inductive Reached (allowed : Int → Process → Call → Table → Prop) : Table → Prop
  | start : Reached allowed spawnInit
  | call {t : Table} (before : Reached allowed t)
      (live : t.process me=some current) (ok : allowed me current call t) :
      Reached allowed (step me current call t).2

def PidsLeft (call : Call) (t : Table) : Prop := call = .fork → t.nextPid+1<2^31

/-- No other process has the caller's id as its job when the caller becomes a session leader. -/
def LeavesNoGroup (me : Int) (current : Process) (call : Call) (t : Table) : Prop :=
  call = .setsid → current.job≠current.tgid →
    ∀ id p, t.process id=some p → id≠me → p.job≠current.tgid

/-- Every job is the id of a process, which has the session of all in the job. -/
structure JobInv (t : Table) : Prop where
  ids : ∀ id p, t.process id=some p → p.tgid=id ∧ 0 < id ∧ id<t.nextPid
  leader : ∀ id p, t.process id=some p → ∃ q, t.process p.job=some q ∧ q.session=p.session
  counter : 1<t.nextPid

theorem Table.set_process (t : Table) (id : Int) :
    (t.set id p).process id' = if id' = id then some p else t.process id' := rfl

section Steps
variable (h : JobInv t)
include h

/-- It has a leader, and the session of those that have it as their leader. -/
theorem JobInv.set {id : Int} (hid : p.tgid=id ∧ 0 < id ∧ id<t.nextPid)
    (hl : ∃ q, (t.set id p).process p.job=some q ∧ q.session=p.session)
    (hm : ∀ id' q, t.process id' = some q → id' ≠ id → q.job=id → p.session=q.session) :
    JobInv (t.set id p) := by
  constructor
  · intro id' q hq
    rw [Table.set_process] at hq
    split at hq
    · rename_i heq
      cases hq
      rw [heq]
      exact hid
    · exact h.ids id' q hq
  · intro id' q hq
    rw [Table.set_process] at hq
    split at hq
    · cases hq
      exact hl
    rename_i hne
    obtain ⟨r,hr,hs⟩ := h.leader id' q hq
    rw [Table.set_process]
    by_cases hj : q.job=id
    · rw [if_pos hj]
      exact ⟨p,rfl,hm id' q hq hne hj⟩
    · rw [if_neg hj]
      exact ⟨r,hr,hs⟩
  · exact h.counter

private theorem JobInv.fork (hl : t.process me=some current) (hpi : t.nextPid+1<2^31) :
    JobInv (fork current t).2 := by
  have hc := h.counter
  have hn : Int.bmod (t.nextPid+1) (2^32)=t.nextPid+1 := Int.bmod_eq_of_le (by omega) (by omega)
  have hf : t.process t.nextPid=none := by
    by_contra hso
    obtain ⟨p,hp⟩ := Option.ne_none_iff_exists'.1 hso
    have := (h.ids _ p hp).2.2
    omega
  -- no one has the new id as the job
  have hj : ∀ id p, t.process id=some p → p.job≠t.nextPid := by
    intro id p hp heq
    obtain ⟨q,hq,-⟩ := h.leader id p hp
    rw [heq,hf] at hq
    cases hq
  have hinv : JobInv { t with nextPid := t.nextPid+1 } := by
    refine ⟨?_,h.leader,?_⟩
    · intro id p hp
      have hi := h.ids id p hp
      exact ⟨hi.1,hi.2.1,by dsimp only; omega⟩
    · dsimp only
      omega
  unfold JobControl.fork getNextPid
  rw [hn]
  apply hinv.set
  · dsimp only
    omega
  · obtain ⟨q,hq,hs⟩ := h.leader me current hl
    refine ⟨q,?_,hs⟩
    rw [Table.set_process,if_neg (hj me current hl)]
    exact hq
  · intro id p hp _ heq
    exact absurd heq (hj id p hp)

private theorem JobInv.setsid (hli : t.process me=some current) (hl : current.job≠current.tgid →
      ∀ id p, t.process id=some p → id≠me → p.job≠current.tgid) :
    JobInv (sysSetsid me current t).2 := by
  obtain ⟨ht,hi⟩ := h.ids me current hli
  unfold sysSetsid
  by_cases hj : current.job=current.tgid
  · rw [if_pos hj]
    exact h
  rw [if_neg hj]
  apply h.set
  · exact ⟨ht,hi⟩
  · rw [Table.set_process,if_pos ht]
    exact ⟨_,rfl,rfl⟩
  · intro id p hp hne heq
    rw [← ht] at heq
    exact absurd heq (hl hj id p hp hne)

private theorem JobInv.move {id job : Int} (hp : t.process id=some proc)
    (hj : ∃ q, t.process job=some q ∧ q.session=proc.session) :
    JobInv (t.set id { proc with job }) := by
  apply h.set
  · exact h.ids id proc hp
  · rw [Table.set_process]
    by_cases heq : job=id
    · rw [if_pos heq]
      exact ⟨_,rfl,rfl⟩
    · rw [if_neg heq]
      exact hj
  · intro id' q hq _ hm
    obtain ⟨r,hr,hs⟩ := h.leader id' q hq
    rw [hm,hp] at hr
    cases hr
    exact hs

private theorem JobInv.setpgid (hl : t.process me=some current) (pid pgid : Int) :
    JobInv (sysSetpgid me current pid pgid t).2 := by
  have hf : ∀ p, (if pid=0 then some current else processFromPid pid t)=some p →
      t.process (if pid=0 then me else pid)=some p := by
    intro p hp
    by_cases hpi : pid=0
    · rw [if_pos hpi] at hp ⊢
      rwa [hl]
    rw [if_neg hpi] at hp ⊢
    unfold processFromPid at hp
    split at hp
    · cases hp
    · exact hp
  unfold sysSetpgid
  split
  · exact h
  dsimp only
  split
  · exact h
  rename_i proc hpr
  have hpr := hf proc hpr
  split
  · exact h
  split
  · apply h.move hpr
    rw [(h.ids _ proc hpr).1]
    exact ⟨proc,hpr,rfl⟩
  split
  · exact h
  rename_i pgroup hpg
  split
  · exact h
  rename_i hs
  apply h.move hpr
  unfold processFromPid at hpg
  split at hpg
  · cases hpg
  · exact ⟨pgroup,hpg,not_not.1 hs⟩
end Steps

private theorem jobInv_spawnInit : JobInv spawnInit := by
  have hi : ∀ id p, spawnInit.process id=some p → id=1 ∧ p=⟨1,1,1⟩ := by
    intro id p hp
    simp only [spawnInit] at hp
    split at hp
    · cases hp
      exact ⟨by assumption,rfl⟩
    · cases hp
  constructor
  · intro id p hp
    obtain ⟨rfl,rfl⟩ := hi id p hp
    decide
  · intro id p hp
    obtain ⟨rfl,rfl⟩ := hi id p hp
    exact ⟨_,rfl,rfl⟩
  · decide

private theorem Reached.jobInv
    (h : Reached (fun me current call t => PidsLeft call t ∧ LeavesNoGroup me current call t) t) :
    JobInv t := by
  induction h with
  | start => exact jobInv_spawnInit
  | @call me current call t _ hl hok ih =>
    cases call with
    | fork => exact ih.fork hl (hok.1 rfl)
    | setsid => exact ih.setsid hl (hok.2 rfl)
    | setpgid pid pgid => exact ih.setpgid hl pid pgid

/-- Processes of one job are of one session. -/
theorem job_in_one_session {t : Table} (h : Reached (fun me current call t =>
    PidsLeft call t ∧ LeavesNoGroup me current call t) t) {id id' : Int} {p p' : Process}
    (hp : t.process id = some p) (hp' : t.process id' = some p') (hjob : p.job = p'.job) :
    p.session = p'.session := by
  have hinv := h.jobInv
  obtain ⟨q,hq,hs⟩ := hinv.leader id p hp
  obtain ⟨q',hq',hs'⟩ := hinv.leader id' p' hp'
  rw [hjob,hq'] at hq
  cases hq
  exact hs.symm.trans hs'

theorem job_in_one_session_forked :
    ∃ t : Table, (∃ p p' : Process, t.process 1 = some p ∧ t.process 2 = some p' ∧ p.job = p'.job) ∧
      ∀ p p', t.process 1 = some p → t.process 2 = some p' → p.job = p'.job →
        p.session = p'.session := by
  have hr : Reached (fun me current call t =>
      PidsLeft call t ∧ LeavesNoGroup me current call t) (step 1 ⟨1,1,1⟩ .fork spawnInit).2 :=
    .call .start rfl ⟨fun _ => by decide,nofun⟩
  refine ⟨(step 1 ⟨1,1,1⟩ .fork spawnInit).2,⟨⟨1,1,1⟩,⟨2,1,1⟩,rfl,rfl,rfl⟩,?_⟩
  intro p p' hp hp' hj
  exact job_in_one_session hr hp hp' hj

def twoForks : Table := (step 1 ⟨1,1,1⟩ .fork (step 1 ⟨1,1,1⟩ .fork spawnInit).2).2

/-- Process 3 joins a job named after process 2, which is in another job and then starts a
session. -/
theorem job_in_two_sessions :
    ∃ t : Table, Reached (fun _ _ call t => PidsLeft call t) t ∧ ∃ p p' : Process,
      t.process 2 = some p ∧ t.process 3 = some p' ∧ p.job = p'.job ∧ p.session ≠ p'.session := by
  have hf : Reached (fun _ _ call t => PidsLeft call t) twoForks :=
    .call (.call .start rfl fun _ => by decide) rfl fun _ => by decide
  have hj : Reached (fun _ _ call t => PidsLeft call t)
      (step 2 ⟨2,1,1⟩ (.setpgid 3 2) twoForks).2 := .call hf rfl nofun
  have hs : Reached (fun _ _ call t => PidsLeft call t)
      (step 2 ⟨2,1,1⟩ .setsid (step 2 ⟨2,1,1⟩ (.setpgid 3 2) twoForks).2).2 :=
    .call hj rfl nofun
  exact ⟨_,hs,_,_,rfl,rfl,rfl,by decide⟩
end RazionOS.Kernel.JobControl
