import Mathlib.Tactic.Common

/-! # The candidate of waitpid -/

namespace RazionOS.Kernel.Waitpid
open Function List

/-- A process or a thread; both go by their ids, which are not used again. -/
structure Process where
  process : Nat
  job : Int
  user : Nat
  tasklet : Bool
  finished : Bool
  running : Bool
  suspended : Bool
  traceFork : Bool
  traceClone : Bool
  status : BitVec 32
  /-- 0 if there is none. -/
  tracer : Nat
  tracees : List Nat
  /-- `process_delete` has taken the tree entry and the entry of the process list. -/
  deleted : Bool
deriving DecidableEq

def newProcess (process : Nat) (job : Int) (user : Nat) (tasklet : Bool) : Process :=
  { process, job, user, tasklet, finished := false, running := false, suspended := false,
    traceFork := false, traceClone := false, status := 0, tracer := 0, tracees := [],
    deleted := false }

structure Options where
  nohang : Bool
  untraced : Bool
  stopped : Bool
  nokern : Bool
deriving DecidableEq

def waitCandidate (parent : Process) (pid : Int) (options : Options) (id : Nat) (proc : Process) :
    Bool :=
  if options.nokern && proc.tasklet then false
  else if pid < -1 then proc.job == -pid || (id : Int) == -pid
  else if pid=0 then proc.job == parent.job
  else if pid > 0 then (id : Int) == pid
  else true

/-- A child that is stopped, if the options ask for it. -/
def stopReported (options : Options) (child : Process) : Bool :=
  child.suspended && child.status &&& 0xFF == 0x7F &&
    (options.stopped || ((child.status >>> 16) &&& 0xFF == 0xFF && options.untraced))

/-- What is known after a loop, with the processes that it has looked at. -/
structure Scan where
  hasChildren : Bool
  candidate : Option Nat
  seen : List Nat
deriving DecidableEq

def scanList (skip matched ready : Nat → Bool) : List Nat → Scan
  | [] => ⟨false,none,[]⟩
  | child::rest =>
    if skip child then scanList skip matched ready rest
    else if matched child && ready child then ⟨true,some child,[child]⟩
    else
      let scan := scanList skip matched ready rest
      ⟨matched child || scan.hasChildren,scan.candidate,child::scan.seen⟩

section Scan
variable (procs : Nat → Process) (caller : Nat) (pid : Int) (options : Options)

def scanChildren : List Nat → Scan :=
  scanList (fun child => child == caller)
    (fun child => waitCandidate (procs (procs caller).process) pid options child (procs child))
    (fun child => (procs child).finished || stopReported options (procs child))

def scanTracees : List Nat → Scan :=
  scanList (fun _ => false)
    (fun child => waitCandidate (procs caller) pid options child (procs child))
    (fun child => (procs child).suspended || (procs child).finished)

/-- A candidate, and whether it is a child of the caller's process or else a tracee. -/
structure Found where
  hasChildren : Bool
  candidate : Option (Nat × Bool)
  seen : List Nat
deriving DecidableEq

def findCandidate (children : List Nat) : Found :=
  let scan := scanChildren procs caller pid options children
  match scan.candidate with
  | some child => ⟨scan.hasChildren,some (child, true),scan.seen⟩
  | none =>
    let traced := scanTracees procs caller pid options (procs caller).tracees
    ⟨scan.hasChildren || traced.hasChildren,traced.candidate.map (·, false), scan.seen++traced.seen⟩
end Scan

def ptraceTrace (tracer tracee : Nat) (procs : Nat → Process) : Nat → Process :=
  let tracees := (procs tracer).tracees
  let procs := update procs tracer
    { procs tracer with
      tracees := if tracee∈tracees then tracees else tracees++[tracee] }
  update procs tracee { procs tracee with tracer := tracer }

def ptraceUntrace (tracer tracee : Nat) (procs : Nat → Process) : Nat → Process :=
  update procs tracer { procs tracer with tracees := (procs tracer).tracees.erase tracee }

def Process.release (p : Process) : Process :=
  { p with tracer := 0, traceFork := false, traceClone := false, suspended := false }

/-- A tracee is let go if it is valid and the process that exits is its tracer. -/
def releaseTracee (tracer tracee : Nat) (procs : Nat → Process) : Nat → Process :=
  if (procs tracee).deleted=false ∧ (procs tracee).tracer=tracer then
    update procs tracee (procs tracee).release
  else procs

/-- What `task_exit` does to the processes; the tracees are popped from the end of the list. -/
def taskExit (id : Nat) (retval : BitVec 32) (procs : Nat → Process) : Nat → Process :=
  let procs := update procs id { procs id with status := retval &&& 0xFFFF }
  let procs := (procs id).tracees.foldr (releaseTracee id) procs
  update procs id { procs id with tracees := [], finished := true, tracer := 0 }

section Lemmas
private theorem scanList_seen (h : c∈(scanList skip matched ready list).seen) : c∈list := by
  induction list with
  | nil => exact h
  | cons child rest ih =>
    rw [scanList] at h
    split at h
    · exact mem_cons_of_mem _ (ih h)
    split at h
    · exact mem_cons.mpr (.inl (mem_singleton.mp h))
    rcases mem_cons.mp h with hf | hr
    · exact hf ▸ mem_cons_self
    · exact mem_cons_of_mem _ (ih hr)

private theorem scanList_candidate (h : (scanList skip matched ready list).candidate=some c) :
    c∈list ∧ skip c=false ∧ ready c=true := by
  induction list with
  | nil => exact absurd h.symm (Option.some_ne_none c)
  | cons child rest ih =>
    rw [scanList] at h
    split at h
    · exact ⟨mem_cons_of_mem _ (ih h).1,(ih h).2⟩
    rename_i hs
    split at h
    · rename_i hr
      obtain rfl := Option.some.inj h
      exact ⟨mem_cons_self,Bool.eq_false_iff.mpr hs,(Bool.and_eq_true _ _ ▸ hr).2⟩
    · exact ⟨mem_cons_of_mem _ (ih h).1,(ih h).2⟩

theorem findCandidate_seen (h : c∈(findCandidate procs caller pid options children).seen) :
    c∈children ∨ c∈(procs caller).tracees := by
  rw [findCandidate] at h
  split at h
  · exact .inl (scanList_seen h)
  rcases mem_append.mp h with hc | ht
  · exact .inl (scanList_seen hc)
  · exact .inr (scanList_seen ht)

theorem findCandidate_candidate
    (h : (findCandidate procs caller pid options children).candidate=some (c, isParent)) :
    isParent=true ∧ c∈children ∧ c≠caller ∨ isParent=false ∧ c∈(procs caller).tracees ∧
        ((procs c).suspended || (procs c).finished)=true := by
  rw [findCandidate] at h
  split at h
  · rename_i child hc
    cases h
    obtain ⟨hmem,hs,-⟩ := scanList_candidate hc
    exact .inl ⟨rfl,hmem,beq_eq_false_iff_ne.mp hs⟩
  · obtain ⟨child,hc,heq⟩ := Option.map_eq_some_iff.mp h
    cases heq
    obtain ⟨hmem,-,hr⟩ := scanList_candidate hc
    exact .inr ⟨rfl,hmem,hr⟩

theorem update_field {id : Nat} (f : Process → α) (h : f p=f (procs id)) (q : Nat) :
    f (update procs id p q)=f (procs q) := by
  rw [update_apply]
  split
  · rename_i hq
    rw [h,hq]
  · rfl

theorem ptraceTrace_apply : ptraceTrace tracer tracee procs p = { procs p with
        tracees := if p=tracer ∧ tracee∉(procs p).tracees then (procs p).tracees++[tracee]
          else (procs p).tracees
        tracer := if p=tracee then tracer else (procs p).tracer } := by
  simp only [ptraceTrace]
  by_cases ht : p=tracer
  · subst ht
    by_cases hmem : tracee∈(procs p).tracees
    · by_cases hs : p=tracee <;> simp [hs]
    · by_cases hs : p=tracee <;> simp [hs]
  · by_cases htr : p=tracee
    · subst htr
      simp [ht]
    · simp [ht,htr]

theorem mem_ptraceTrace_tracees : p∈(ptraceTrace tracer tracee procs t).tracees ↔
      p∈(procs t).tracees ∨ t=tracer ∧ p=tracee := by
  rw [ptraceTrace_apply]
  by_cases h : t=tracer ∧ tracee∉(procs t).tracees
  · simp only [if_pos h,mem_append,mem_singleton]
    exact or_congr_right (and_iff_right h.1).symm
  simp only [if_neg h]
  refine (or_iff_left_of_imp ?_).symm
  rintro ⟨rfl,rfl⟩
  by_contra hmem
  exact h ⟨rfl,hmem⟩

theorem nodup_ptraceTrace_tracees (h : (procs t).tracees.Nodup) :
    (ptraceTrace tracer tracee procs t).tracees.Nodup := by
  rw [ptraceTrace_apply]
  by_cases hn : t=tracer ∧ tracee∉(procs t).tracees
  · simp only [if_pos hn,nodup_append]
    refine ⟨h,pairwise_singleton _ _,?_⟩
    intro a ha b hb heq
    rw [mem_singleton.mp hb] at heq
    exact hn.2 (heq ▸ ha)
  · simp only [if_neg hn]
    exact h

theorem ptraceUntrace_apply : ptraceUntrace tracer tracee procs p = { procs p with
        tracees := if p=tracer then (procs p).tracees.erase tracee else (procs p).tracees } := by
  simp only [ptraceUntrace]
  by_cases hp : p=tracer <;> simp [hp]

theorem nodup_ptraceUntrace_tracees (h : (procs t).tracees.Nodup) :
    (ptraceUntrace tracer tracee procs t).tracees.Nodup := by
  rw [ptraceUntrace_apply]
  split
  · exact h.erase tracee
  · exact h

theorem mem_ptraceUntrace_tracees (h : (procs t).tracees.Nodup) :
    p∈(ptraceUntrace tracer tracee procs t).tracees ↔
      p∈(procs t).tracees ∧ ¬(t=tracer ∧ p=tracee) := by
  rw [ptraceUntrace_apply]
  by_cases ht : t=tracer
  · subst ht
    simp only [if_true,h.mem_erase_iff,true_and]
    exact and_comm
  · simp [ht]

private theorem releaseTracee_apply : releaseTracee tracer tracee procs p =
      if p=tracee ∧ (procs p).deleted=false ∧ (procs p).tracer=tracer then (procs p).release
      else procs p := by
  rw [releaseTracee]
  by_cases hp : p=tracee
  · subst hp
    by_cases hv : (procs p).deleted=false ∧ (procs p).tracer=tracer
    · rw [if_pos hv,if_pos ⟨rfl,hv⟩,update_self]
    · rw [if_neg hv,if_neg fun h => hv h.2]
  · simp only [hp]
    split
    · exact update_of_ne hp _ _
    · rfl

theorem releaseTracees_apply (tracees : List Nat) : tracees.foldr (releaseTracee tracer) procs p =
      if p∈tracees ∧ (procs p).deleted=false ∧ (procs p).tracer=tracer then
        (procs p).release
      else procs p := by
  induction tracees with
  | nil => exact (if_neg fun h => absurd h.1 not_mem_nil).symm
  | cons tracee tracees ih =>
    rw [foldr_cons,releaseTracee_apply,ih]
    by_cases hv : (procs p).deleted=false ∧ (procs p).tracer=tracer
    · by_cases hr : p∈tracees
      · -- it is let go twice, which is the same as once
        simp only [hr,hv,mem_cons,or_true]
        exact ite_self _
      · simp [hr]
    · have hr : ¬(p∈tracees ∧ (procs p).deleted=false ∧ (procs p).tracer=tracer) :=
        fun h => hv h.2
      rw [if_neg hr,if_neg fun h => hv h.2,if_neg fun h => hv h.2]

variable {id p : Nat}

theorem taskExit_of_ne (hp : p≠id) : taskExit id retval procs p =
      if p∈(procs id).tracees ∧ (procs p).deleted=false ∧ (procs p).tracer=id then
        (procs p).release
      else procs p := by
  simp [taskExit,update_of_ne hp,releaseTracees_apply]

theorem taskExit_fields : (taskExit id retval procs p).deleted=(procs p).deleted ∧
      (taskExit id retval procs p).process=(procs p).process ∧
      (taskExit id retval procs p).finished=(p=id || (procs p).finished) ∧
      (taskExit id retval procs p).tracees=if p=id then [] else (procs p).tracees := by
  by_cases hp : p=id
  · simp only [taskExit,hp,releaseTracees_apply]
    split <;> simp [Process.release]
  · rw [taskExit_of_ne hp]
    split <;> simp [hp,Process.release]

theorem taskExit_tracer_le : (taskExit id retval procs p).tracer≤(procs p).tracer := by
  by_cases hp : p=id
  · simp only [taskExit,hp,update_self]
    exact Nat.zero_le _
  rw [taskExit_of_ne hp]
  split
  · exact Nat.zero_le _
  · exact Nat.le_refl _

theorem mem_taskExit_tracees (h : c∈(taskExit id retval procs p).tracees) :
    c∈(procs p).tracees := by
  rw [taskExit_fields.2.2.2] at h
  split at h
  · exact absurd h not_mem_nil
  · exact h
end Lemmas
end RazionOS.Kernel.Waitpid
