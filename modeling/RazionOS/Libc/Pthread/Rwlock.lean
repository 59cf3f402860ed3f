import Mathlib.Algebra.Order.BigOperators.Group.Finset

/-!
# Read-write locks

A call waits for its turn with `atomic_lock` in its hands, and the holders that it waits for need
the same word to leave. `readers` is only used by the thread that has `atomic_lock`, so that a test
of it and the store that follows are one step. There are fewer than 2^31 threads.
-/

namespace RazionOS.Libc.Rwlock
open Function Finset List

inductive Kind where
  | read
  | write
deriving DecidableEq

/-- Where a thread is in its first section: `waiting`, `granted`, `unlocking` and `leaving` are the
places at which it has `atomic_lock`. -/
inductive Phase where
  | outside
  | waiting
  | granted
  | inside
  | unlocking
  | leaving
deriving DecidableEq

/-- The sections that are still to be run, with the one under way. -/
structure Thread where
  phase : Phase
  program : List Kind

structure State (ι : Type) where
  readers : Int
  atomicLock : Bool
  thread : ι → Thread

def Kind.Admitted (readers : Int) : Kind → Prop
  | .read => 0 ≤ readers
  | .write => readers=0

instance (readers : Int) : (k : Kind) → Decidable (k.Admitted readers)
  | .read => inferInstanceAs (Decidable (0 ≤ readers))
  | .write => inferInstanceAs (Decidable (readers=0))

def Kind.enter (readers : Int) : Kind → Int
  | .read => readers+1
  | .write => -1

def leave (readers : Int) : Int :=
  if 0 < readers then readers-1 else if readers<0 then 0 else readers

variable {ι : Type}

def State.moved [DecidableEq ι] (s : State ι) (t : ι) (readers : Int) (atomicLock : Bool)
    (phase : Phase) (program : List Kind) : State ι :=
  ⟨readers,atomicLock,update s.thread t ⟨phase,program⟩⟩

@[simp]
theorem State.moved_thread_self [DecidableEq ι] (s : State ι) (readers : Int) (atomicLock : Bool) :
    (s.moved t readers atomicLock phase program).thread t=⟨phase,program⟩ :=
  update_self t _ _

/-- One step of a thread. A loop that goes round leaves everything as it is. -/
def step [DecidableEq ι] (s : State ι) (t : ι) : State ι :=
  match s.thread t with
  | ⟨_,[]⟩ => s
  | ⟨.outside,k::rest⟩ =>
    if s.atomicLock then s else s.moved t s.readers true .waiting (k::rest)
  | ⟨.waiting,k::rest⟩ =>
    if k.Admitted s.readers then s.moved t (k.enter s.readers) s.atomicLock .granted (k::rest)
    else s
  | ⟨.granted,k::rest⟩ => s.moved t s.readers false .inside (k::rest)
  | ⟨.inside,k::rest⟩ =>
    if s.atomicLock then s else s.moved t s.readers true .unlocking (k::rest)
  | ⟨.unlocking,k::rest⟩ => s.moved t (leave s.readers) s.atomicLock .leaving (k::rest)
  | ⟨.leaving,_::rest⟩ => s.moved t s.readers false .outside rest

def start (program : ι → List Kind) : State ι := ⟨0,false,fun t => ⟨.outside,program t⟩⟩

/-- The lock is taken for a section of the kind. -/
def Thread.Holds (x : Thread) (k : Kind) : Prop :=
  x.phase∈[.granted, .inside, .unlocking] ∧ x.program.head? = some k

def Exclusive (s : State ι) : Prop :=
  ∀ t u k, t≠u → (s.thread t).Holds .write → ¬(s.thread u).Holds k

def Finished (s : State ι) : Prop := ∀ t, (s.thread t).program=[]

def Thread.Critical (x : Thread) : Prop :=
  x.program≠[] ∧ x.phase∈[.waiting, .granted, .unlocking, .leaving]

def Counted (readers : Int) (holders : List ι) (section? : ι → Option Kind) : Prop :=
  (readers=holders.length ∧ ∀ t∈holders, section? t=some .read) ∨
    (readers = -1 ∧ ∃ t, holders=[t] ∧ section? t=some .write)

/-- `owner` has `atomic_lock`, and `readers` counts the threads that hold the lock. -/
structure Inv (s : State ι) (owner : Option ι) (holders : List ι) : Prop where
  lock : s.atomicLock=owner.isSome
  owns : ∀ t, (s.thread t).Critical ↔ owner=some t
  holds : ∀ t, t∈holders ↔ ∃ k, (s.thread t).Holds k
  nodup : holders.Nodup
  count : Counted s.readers holders fun t => (s.thread t).program.head?

variable {t u : ι}

private theorem Inv.exclusive (h : Inv s owner holders) : Exclusive s := by
  intro t u k hne ht hu
  have htm := (h.holds t).2 ⟨_,ht⟩
  have hum := (h.holds u).2 ⟨_,hu⟩
  obtain ⟨-,hr⟩ | ⟨-,v,rfl,-⟩ := h.count
  · cases ht.2.symm.trans (hr t htm)
  · exact hne ((List.mem_singleton.1 htm).trans (List.mem_singleton.1 hum).symm)

private theorem Inv.free (h : Inv s owner holders) (hl : ¬s.atomicLock) : owner=none := by
  simpa [h.lock] using hl

variable {program : ι → List Kind}

private theorem Inv.start : Inv (start program) none [] :=
  ⟨rfl,by simp [Rwlock.start,Thread.Critical],by simp [Rwlock.start,Thread.Holds],.nil,
    .inl ⟨rfl,by simp⟩⟩

/-- What is left of each program is a part of it. -/
def Within (program : ι → List Kind) (s : State ι) : Prop := ∀ t, (s.thread t).program ⊆ program t

/-- No writer shares the lock with anyone. -/
def Unshared (program : ι → List Kind) : Prop := ∀ t u, t≠u → .write∈program t → program u=[]

private theorem Inv.admitted (h : Inv s owner holders) (hw : Within program s)
    (hun : Unshared program) (hx : s.thread t=⟨.waiting,k::rest⟩) : k.Admitted s.readers := by
  have ho : t∉holders := by simp [h.holds,hx,Thread.Holds]
  have hm : k∈program t := hw t (by simp [hx])
  obtain ⟨hl,-⟩ | ⟨-,u,rfl,hwr⟩ := h.count
  · cases k with
    | read => exact hl ▸ Int.natCast_nonneg _
    | write =>
      have hn : holders=[] := by
        refine eq_nil_iff_forall_not_mem.2 fun u hu => ?_
        obtain ⟨k,-,hk⟩ := (h.holds u).1 hu
        have ht := hw u (mem_of_mem_head? hk)
        rw [hun t u (fun heq => ho (heq ▸ hu)) hm] at ht
        cases ht
      rw [hl,hn]
      rfl
  · -- The holder is a writer, so that nobody else has a section to run.
    have hne : u≠t := fun heq => ho (by simp [heq])
    rw [hun u t hne (hw u (mem_of_mem_head? hwr))] at hm
    cases hm

variable [DecidableEq ι]

private theorem Inv.moved (h : Inv s owner holders) {program : List Kind} {owner' : Option ι}
    {holders' : List ι} (ho : owner=none ∨ owner=some t) (ho' : owner' = none ∨ owner' = some t)
    (hlo : atomicLock=owner'.isSome) (hcr : (Thread.mk phase program).Critical ↔ owner' = some t)
    (hot : ∀ u, u≠t → (u∈holders' ↔ u∈holders))
    (hh : t∈holders' ↔ ∃ k, (Thread.mk phase program).Holds k) (hn : holders'.Nodup)
    (hc : Counted readers holders' fun t => (s.thread t).program.head?)
    (hse : t∈holders' → program.head? = (s.thread t).program.head?) :
    Inv (s.moved t readers atomicLock phase program) owner' holders' where
  lock := hlo
  owns u := by
    by_cases hut : u=t
    · subst hut
      simpa using hcr
    · obtain rfl | rfl := ho <;> obtain rfl | rfl := ho' <;>
        simp [State.moved,hut,Ne.symm,h.owns]
  holds u := by
    by_cases hut : u=t
    · subst hut
      simpa using hh
    · simp [State.moved,hut,h.holds,hot]
  nodup := hn
  count := by
    have hs : ∀ u∈holders', (update s.thread t ⟨phase,program⟩ u).program.head? =
        (s.thread u).program.head? := by
      intro u hu
      by_cases hut : u=t
      · subst hut
        simpa using hse hu
      · simp [hut]
    obtain ⟨hl,hr⟩ | ⟨hwr,u,rfl,hw⟩ := hc
    · exact .inl ⟨hl,fun u hu => (hs u hu).trans (hr u hu)⟩
    · exact .inr ⟨hwr,u,rfl,(hs u (List.mem_singleton_self u)).trans hw⟩

theorem Inv.step (h : Inv s owner holders) (t : ι) :
    ∃ owner' holders', Inv (step s t) owner' holders' := by
  have ho := h.owns t
  have hh := h.holds t
  unfold Rwlock.step
  split
  · exact ⟨_,_,h⟩
  all_goals
    rename_i k rest hx
    rw [hx] at ho hh
  · split_ifs with hl
    · exact ⟨_,_,h⟩
    exact ⟨some t,holders,h.moved (.inl (h.free hl)) (.inr rfl) rfl (by simp [Thread.Critical])
      (fun _ _ => .rfl) (by simp [hh,Thread.Holds]) h.nodup h.count (by simp [hx])⟩
  · have hm := ho.1 (by simp [Thread.Critical])
    have hou : t∉holders := by simp [hh,Thread.Holds]
    split_ifs with ha
    · refine ⟨owner,t::holders,h.moved (.inr hm) (.inr hm) h.lock
        (by simp [Thread.Critical,hm]) (fun u hu => by simp [hu]) (by simp [Thread.Holds])
        (h.nodup.cons hou) ?_ (by simp [hx])⟩
      obtain ⟨hle,hr⟩ | ⟨hw,-⟩ := h.count
      · cases k with
        | read =>
          refine .inl ⟨by simp [Kind.enter,hle],?_⟩
          simpa [hx] using hr
        | write =>
          have hz : s.readers=0 := ha
          obtain rfl : holders=[] := length_eq_zero_iff.1 (by omega)
          exact .inr ⟨rfl,t,rfl,by simp [hx]⟩
      · rw [hw] at ha
        cases k <;> cases ha
    · exact ⟨_,_,h⟩
  · have hm := ho.1 (by simp [Thread.Critical])
    exact ⟨none,holders,h.moved (.inr hm) (.inl rfl) rfl (by simp [Thread.Critical])
      (fun _ _ => .rfl) (by simp [hh,Thread.Holds]) h.nodup h.count (by simp [hx])⟩
  · split_ifs with hl
    · exact ⟨_,_,h⟩
    exact ⟨some t,holders,h.moved (.inl (h.free hl)) (.inr rfl) rfl (by simp [Thread.Critical])
      (fun _ _ => .rfl) (by simp [hh,Thread.Holds]) h.nodup h.count (by simp [hx])⟩
  · have hm := ho.1 (by simp [Thread.Critical])
    have hin : t∈holders := by simp [hh,Thread.Holds]
    refine ⟨owner,holders.erase t,h.moved (.inr hm) (.inr hm) h.lock
      (by simp [Thread.Critical,hm]) (fun u hu => mem_erase_of_ne hu)
      (by simp [h.nodup.mem_erase_iff,Thread.Holds]) (h.nodup.erase t) ?_
      (by simp [h.nodup.mem_erase_iff])⟩
    obtain ⟨hle,hr⟩ | ⟨hw,u,rfl,-⟩ := h.count
    · refine .inl ⟨?_,fun u hu => hr u (List.mem_of_mem_erase hu)⟩
      rw [leave,length_erase_of_mem hin]
      omega
    · obtain rfl := List.mem_singleton.1 hin
      exact .inl ⟨by simp [leave,hw],by simp⟩
  · have hm := ho.1 (by simp [Thread.Critical])
    have hou : t∉holders := by simp [hh,Thread.Holds]
    exact ⟨none,holders,h.moved (.inr hm) (.inl rfl) rfl (by simp [Thread.Critical])
      (fun _ _ => .rfl) (by simp [hh,Thread.Holds]) h.nodup h.count (absurd · hou)⟩

theorem step_thread_of_ne (hut : u≠t) : (step s t).thread u=s.thread u := by
  unfold Rwlock.step
  split <;> try split_ifs
  all_goals simp [State.moved,hut]

private theorem step_program_subset (s : State ι) :
    ((step s t).thread t).program ⊆ (s.thread t).program := by
  unfold Rwlock.step
  split <;> try split_ifs
  all_goals simp [*]

theorem Within.step (h : Within program s) (t : ι) : Within program (step s t) := by
  intro u
  by_cases hut : u=t
  · subst hut
    exact fun k hk => h u (step_program_subset s hk)
  · rw [step_thread_of_ne hut]
    exact h u

theorem foldl_step {P : State ι → Prop} (hs : ∀ s t, P s → P (step s t)) (h : P s)
    (schedule : List ι) : P (schedule.foldl step s) := by
  induction schedule generalizing s with
  | nil => exact h
  | cons t schedule ih => exact ih (hs s t h)

def Thread.rank (x : Thread) : Nat := 6*x.program.length-x.phase.ctorIdx

private theorem Inv.progress (h : Inv s owner holders) (hw : Within program s)
    (hu : Unshared program) (hr : ¬Finished s) :
    ∃ t, ((Rwlock.step s t).thread t).rank<(s.thread t).rank := by
  have hs : ∃ t, (s.thread t).program≠[] ∧ (owner=none ∨ owner=some t) := by
    cases owner with
    | none =>
      obtain ⟨t,ht⟩ := not_forall.1 hr
      exact ⟨t,ht,.inl rfl⟩
    | some t => exact ⟨t,((h.owns t).2 rfl).1,.inr rfl⟩
  obtain ⟨t,hp,ho⟩ := hs
  have hf : ¬(s.thread t).Critical → s.atomicLock=false := by
    intro hc
    rw [h.lock,ho.resolve_right fun hm => hc ((h.owns t).2 hm)]
    rfl
  refine ⟨t,?_⟩
  unfold Rwlock.step
  split
  · rename_i hx
    simp [hx] at hp
  all_goals rename_i k rest hx
  case h_2 | h_5 =>
    rw [if_neg (by simp [hf (by simp [Thread.Critical,hx])])]
    simp only [State.moved_thread_self,hx,Thread.rank,Phase.ctorIdx,length_cons]
    omega
  case h_3 =>
    rw [if_pos (h.admitted hw hu hx)]
    simp only [State.moved_thread_self,hx,Thread.rank,Phase.ctorIdx,length_cons]
    omega
  case h_4 | h_6 | h_7 =>
    simp only [State.moved_thread_self,hx,Thread.rank,Phase.ctorIdx,length_cons]
    omega

private theorem Inv.finishes [Fintype ι] (h : Inv s owner holders) (hw : Within program s)
    (hu : Unshared program) : ∃ more : List ι, Finished (more.foldl Rwlock.step s) := by
  induction hr : ∑ t, (s.thread t).rank using Nat.strong_induction_on
    generalizing s owner holders with
  | _ rank ih =>
    by_cases hd : Finished s
    · exact ⟨[],hd⟩
    obtain ⟨t,hl⟩ := h.progress hw hu hd
    have hsu : ∑ u, ((Rwlock.step s t).thread u).rank < ∑ u, (s.thread u).rank := by
      refine sum_lt_sum (fun u _ => ?_) ⟨t,mem_univ t,hl⟩
      by_cases hut : u=t
      · exact hut ▸ hl.le
      · rw [step_thread_of_ne hut]
    obtain ⟨owner',holders',hs⟩ := h.step t
    obtain ⟨more,hm⟩ := ih _ (hr ▸ hsu) hs (hw.step t) rfl
    exact ⟨t::more,hm⟩

def Stuck (s : State ι) : Prop := ∀ more : List ι, ¬Finished (more.foldl step s)

/-- A writer that waits for a holder keeps everyone from moving. -/
theorem Inv.stuck (h : Inv s owner holders) (rest : List Kind)
    (hx : s.thread t=⟨.waiting,.write::rest⟩) (hr : s.readers≠0) : Stuck s := by
  have hm := (h.owns t).1 (by simp [Thread.Critical,hx])
  have hl : s.atomicLock=true := by rw [h.lock,hm,Option.isSome_some]
  have hs : ∀ u, Rwlock.step s u=s := by
    intro u
    by_cases hut : u=t
    · simp [Rwlock.step,hut,hx,Kind.Admitted,hr]
    have hc : ¬(s.thread u).Critical := by simp [h.owns,hm,Ne.symm hut]
    unfold Rwlock.step
    split
    all_goals simp_all [Thread.Critical]
  have hru := foldl_step (P := (· = s)) (fun _ u heq => heq ▸ hs u) rfl
  intro more hd
  have hp := hd t
  rw [hru,hx] at hp
  cases hp

private theorem solo (f : ι → Thread) (before after : List Kind)
    (hx : f t=⟨.outside,before++after⟩) :
    ∃ schedule : List ι, schedule.foldl step ⟨0,false,f⟩ =
      ⟨0,false,update f t ⟨.outside,after⟩⟩ := by
  induction before generalizing f with
  | nil =>
    refine ⟨[],?_⟩
    rw [update_eq_self_iff.2 hx.symm]
    rfl
  | cons k before ih =>
    have hse : (replicate 6 t).foldl step ⟨0,false,f⟩ =
        ⟨0,false,update f t ⟨.outside,before++after⟩⟩ := by
      cases k <;> simp [replicate,step,hx,State.moved,Kind.Admitted,Kind.enter,leave]
    obtain ⟨schedule,hs⟩ := ih (update f t ⟨.outside,before++after⟩) (by simp)
    refine ⟨replicate 6 t++schedule,?_⟩
    rw [foldl_append,hse,hs,update_idem]

theorem Inv.run (program : ι → List Kind) (schedule : List ι) : ∃ owner holders,
    Inv (schedule.foldl Rwlock.step (Rwlock.start program)) owner holders :=
  foldl_step (P := fun s => ∃ owner holders, Inv s owner holders)
    (fun _ t ⟨_,_,h⟩ => h.step t) ⟨none,[],.start⟩ schedule

/-- `readers` counts the holders, and `atomic_lock` is set exactly while one thread has it. -/
theorem readers_counts (program : ι → List Kind) (schedule : List ι) :
    let s := schedule.foldl step (start program)
    (∃ holders : List ι, holders.Nodup ∧ (∀ t, t ∈ holders ↔ ∃ k, (s.thread t).Holds k) ∧
      Counted s.readers holders fun t => (s.thread t).program.head?) ∧
    (s.atomicLock = true ↔ ∃! t, (s.thread t).Critical) := by
  obtain ⟨owner,holders,h⟩ := Inv.run program schedule
  refine ⟨⟨holders,h.nodup,h.holds,h.count⟩,?_⟩
  rw [h.lock]
  simp only [h.owns]
  cases owner <;> simp [ExistsUnique]

private theorem exists_stuck (hut : u≠t) (ht : .write∈program t) (hu : program u≠[]) :
    ∃ schedule : List ι, Stuck (schedule.foldl step (start program)) := by
  obtain ⟨before,after,hp⟩ := append_of_mem ht
  obtain ⟨k,rest,hk⟩ := exists_cons_of_ne_nil hu
  obtain ⟨schedule,hs⟩ := solo (start program).thread before (.write::after)
    (t := t) (by simp [start,hp])
  -- The other thread goes in, then the writer takes the lock word and waits.
  obtain ⟨owner,holders,h⟩ := Inv.run program _
  have he : (schedule++[u,u,u,t]).foldl step (start program) =
      [u,u,u,t].foldl step ⟨0,false,update (start program).thread t
        ⟨.outside,.write::after⟩⟩ := by
    rw [foldl_append,← hs]
    rfl
  refine ⟨schedule++[u,u,u,t],h.stuck (t := t) after ?_ ?_⟩
  all_goals
    rw [he]
    cases k <;> simp [step,State.moved,start,hut,hut.symm,hk,Kind.Admitted,Kind.enter]

theorem exclusive_and_finishes_iff [Fintype ι] (program : ι → List Kind) :
    (∀ schedule : List ι, Exclusive (schedule.foldl step (start program))) ∧
      ((∀ schedule : List ι, ∃ more : List ι,
        Finished (more.foldl step (schedule.foldl step (start program)))) ↔
        ∀ t u, t ≠ u → .write ∈ program t → program u = []) := by
  refine ⟨fun schedule => ?_,fun hf t u htu hwr => ?_,fun hun schedule => ?_⟩
  · obtain ⟨owner,holders,h⟩ := Inv.run program schedule
    exact h.exclusive
  · by_contra hu
    obtain ⟨schedule,hs⟩ := exists_stuck htu.symm hwr hu
    obtain ⟨more,hd⟩ := hf schedule
    exact hs more hd
  · obtain ⟨owner,holders,h⟩ := Inv.run program schedule
    have hw := foldl_step (P := Within program) (fun _ t h => h.step t)
      (s := start program) (fun _ => List.Subset.refl _) schedule
    exact h.finishes hw hun

/-- A reader is inside when a writer asks for the lock. -/
theorem reader_then_writer_stuck :
    ¬∃ more : List Bool, Finished (more.foldl step ([false,false,false,true].foldl step
      (start fun t => if t then [.write] else [.read]))) := by
  obtain ⟨owner,holders,h⟩ := Inv.run (fun t => if t then [.write] else [.read])
    [false,false,false,true]
  rintro ⟨more,hd⟩
  exact h.stuck (t := true) [] rfl (by decide) more hd

end RazionOS.Libc.Rwlock
