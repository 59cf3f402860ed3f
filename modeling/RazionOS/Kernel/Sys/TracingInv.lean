import RazionOS.Kernel.Sys.Tracing

/-! # The tracing relation -/

namespace RazionOS.Kernel.Tracing
open Waitpid Function List Nat Option

def State.Valid (s : State) (id : Nat) : Prop :=
  0 < id ∧ id < s.nextPid ∧ (s.procs id).deleted=false

structure Traced (s : State) : Prop where
  valid : ∀ t p, s.Valid t → p∈(s.procs t).tracees → s.Valid p
  matched : ∀ p t, s.Valid p → (s.procs p).finished=false → s.Valid t →
    (p∈(s.procs t).tracees ↔ (s.procs p).tracer=t)

structure Tree (s : State) : Prop where
  root : s.Valid init
  top : s.parent init=none
  child : ∀ q c, c∈s.children q → s.Valid c ∧ s.parent c=some q
  parent : ∀ c q, s.Valid c → s.parent c=some q → s.Valid q ∧ c∈s.children q ∧ c≠q
  nodup : ∀ q, (s.children q).Nodup

structure Inv (s : State) : Prop where
  traced : Traced s
  tree : Tree s
  nodup : ∀ t, s.Valid t → (s.procs t).tracees.Nodup
  deleted : ∀ p, (s.procs p).deleted=true → (s.procs p).finished=true
  leader : ∀ p, s.Valid p → 0<(s.procs p).process ∧ (s.procs p).process < s.nextPid
  tracer : ∀ p, s.Valid p → (s.procs p).tracer < s.nextPid

section Valid
variable {s : State} {id : Nat}

theorem valid_iff : s.valid id=true ↔ s.Valid id := by
  simp [State.valid,State.Valid,and_assoc]

theorem live_iff : s.live id=true ↔ s.Valid id ∧ (s.procs id).finished=false := by
  simp [State.live,valid_iff]

theorem processFromPid_valid (h : processFromPid pid s=some id) : s.Valid id := by
  rw [processFromPid] at h
  split at h
  · exact absurd h.symm (some_ne_none id)
  split at h
  · rename_i hv
    exact some.inj h ▸ valid_iff.mp hv
  · exact absurd h.symm (some_ne_none id)

theorem processFromPid_eq_none : processFromPid (id : Int) s=none ↔ ¬s.Valid id := by
  rw [processFromPid,← valid_iff]
  simp
end Valid

theorem start_valid (h : start.Valid p) : p=init := by
  have hl := h.1
  have hh : p<2 := h.2.1
  rw [init]
  omega

theorem start_inv : Inv start := by
  refine ⟨⟨?_,?_⟩,⟨?_,rfl,?_,?_,fun _ => .nil⟩,fun _ _ => .nil,?_,?_,?_⟩
  · intro t p _ hp
    exact absurd hp not_mem_nil
  · intro p t _ _ ht
    refine iff_of_false not_mem_nil ?_
    exact fun h => absurd ht.1 (Nat.not_lt.mpr (Nat.le_of_eq h.symm))
  · exact ⟨Nat.one_pos,lt_succ_self 1,rfl⟩
  · intro q c hc
    exact absurd hc not_mem_nil
  · intro c q _ hq
    exact absurd hq.symm (some_ne_none q)
  · intro p hp
    exact absurd hp Bool.false_ne_true
  · intro p hp
    rw [start_valid hp]
    exact ⟨Nat.one_pos,lt_succ_self 1⟩
  · intro p _
    exact Nat.two_pos

section Procs
variable {s : State}

private theorem Tree.congr (h : Tree s) (hv : ∀ p, s'.Valid p ↔ s.Valid p) (hp : s'.parent=s.parent)
    (hch : s'.children=s.children) : Tree s' := by
  refine ⟨(hv _).mpr h.root,hp ▸ h.top,?_,?_,hch ▸ h.nodup⟩
  · intro q c hc
    rw [hch] at hc
    rw [hv,hp]
    exact h.child q c hc
  · intro c q hc hq
    rw [hv] at hc
    rw [hp] at hq
    rw [hv,hch]
    exact h.parent c q hc hq

theorem setProcs_valid (hd : ∀ p, (procs p).deleted=(s.procs p).deleted) (p : Nat) :
    (s.setProcs procs).Valid p ↔ s.Valid p := by
  rw [State.Valid,State.Valid,← hd]
  rfl

theorem setProcs_inv (h : Inv s) (hd : ∀ p, (procs p).deleted=(s.procs p).deleted)
    (hpr : ∀ p, (procs p).process=(s.procs p).process)
    (hf : ∀ p, (s.procs p).finished=true → (procs p).finished=true)
    (hnd : ∀ t, s.Valid t → (procs t).tracees.Nodup)
    (hv : ∀ t p, s.Valid t → p∈(procs t).tracees → s.Valid p)
    (hm : ∀ p t, s.Valid p → (procs p).finished=false → s.Valid t →
      (p∈(procs t).tracees ↔ (procs p).tracer=t))
    (htr : ∀ p, s.Valid p → (procs p).tracer < s.nextPid) : Inv (s.setProcs procs) := by
  have hs := setProcs_valid hd
  refine ⟨⟨?_,?_⟩,h.tree.congr hs rfl rfl,?_,?_,?_,?_⟩
  · intro t p ht hp
    exact (hs p).mpr (hv t p ((hs t).mp ht) hp)
  · intro p t hp hu ht
    exact hm p t ((hs p).mp hp) hu ((hs t).mp ht)
  · intro t ht
    exact hnd t ((hs t).mp ht)
  · intro p hp
    exact hf p (h.deleted p ((hd p).symm.trans hp))
  · intro p hp
    have hl := h.leader p ((hs p).mp hp)
    rw [← hpr] at hl
    exact hl
  · intro p hp
    exact htr p ((hs p).mp hp)

theorem setProc_inv (h : Inv s) (id : Nat) (p : Process)
    (hs : p.process=(s.procs id).process ∧ p.finished=(s.procs id).finished ∧
      p.deleted=(s.procs id).deleted ∧ p.tracer=(s.procs id).tracer ∧
        p.tracees=(s.procs id).tracees) : Inv (s.setProc id p) := by
  obtain ⟨hp,hf,hd,htra,htr⟩ := hs
  refine setProcs_inv h (update_field _ hd) (update_field _ hp) ?_ ?_ ?_ ?_ ?_
  · intro q hq
    rw [update_field _ hf]
    exact hq
  · intro t ht
    rw [update_field _ htr]
    exact h.nodup t ht
  · intro t q ht hq
    rw [update_field _ htr] at hq
    exact h.traced.valid t q ht hq
  · intro q t hq hu ht
    rw [update_field _ hf] at hu
    rw [update_field _ htr,update_field _ htra]
    exact h.traced.matched q t hq hu ht
  · intro q hq
    rw [update_field _ htra]
    exact h.tracer q hq

/-- Nobody but the new tracer lists the tracee, unless it has finished. -/
def Free (s : State) (tracer tracee : Nat) : Prop :=
  (s.procs tracee).finished=false → ∀ t, s.Valid t → tracee∈(s.procs t).tracees → t=tracer

theorem trace_inv (h : Inv s) (htra : s.Valid tracer) (htr : s.Valid tracee)
    (hf : Free s tracer tracee) : Inv (s.setProcs (ptraceTrace tracer tracee s.procs)) := by
  refine setProcs_inv h ?_ ?_ ?_ ?_ ?_ ?_ ?_
  · intro p
    rw [ptraceTrace_apply]
  · intro p
    rw [ptraceTrace_apply]
  · intro p hp
    rw [ptraceTrace_apply]
    exact hp
  · intro t ht
    exact nodup_ptraceTrace_tracees (h.nodup t ht)
  · intro t p ht hp
    rcases mem_ptraceTrace_tracees.mp hp with hold | ⟨-,rfl⟩
    · exact h.traced.valid t p ht hold
    · exact htr
  · intro p t hp hu ht
    rw [ptraceTrace_apply] at hu
    rw [mem_ptraceTrace_tracees,ptraceTrace_apply]
    by_cases hn : p=tracee
    · subst hn
      simp only [and_true]
      constructor
      · rintro (hold | heq)
        · exact (hf hu t ht hold).symm
        · exact heq.symm
      · intro heq
        exact .inr heq.symm
    · simp only [hn,and_false,or_false]
      exact h.traced.matched p t hp hu ht
  · intro p hp
    rw [ptraceTrace_apply]
    by_cases hn : p=tracee
    · simp only [hn]
      exact htra.2.1
    · simp only [hn]
      exact h.tracer p hp

/-- If the relation holds afterwards then nobody else listed the tracee. -/
theorem trace_free (htra : s.Valid tracee)
    (h : Traced (s.setProcs (ptraceTrace tracer tracee s.procs))) : Free s tracer tracee := by
  have hv : ∀ p, (s.setProcs (ptraceTrace tracer tracee s.procs)).Valid p ↔ s.Valid p :=
    setProcs_valid fun p => by rw [ptraceTrace_apply]
  intro hu t ht hmem
  have hm := h.matched tracee t ((hv _).mpr htra) (by
    simp only [State.setProcs,ptraceTrace_apply]
    exact hu) ((hv _).mpr ht)
  have htr := hm.mp (mem_ptraceTrace_tracees.mpr (.inl hmem))
  simp only [State.setProcs,ptraceTrace_apply] at htr
  exact htr.symm

theorem untrace_inv (h : Inv s)
    (ho : (s.procs tracee).finished=false → (s.procs tracee).tracer≠tracer) :
    Inv (s.setProcs (ptraceUntrace tracer tracee s.procs)) := by
  refine setProcs_inv h ?_ ?_ ?_ ?_ ?_ ?_ ?_
  · intro p
    rw [ptraceUntrace_apply]
  · intro p
    rw [ptraceUntrace_apply]
  · intro p hp
    rw [ptraceUntrace_apply]
    exact hp
  · intro t ht
    exact nodup_ptraceUntrace_tracees (h.nodup t ht)
  · intro t p ht hp
    exact h.traced.valid t p ht ((mem_ptraceUntrace_tracees (h.nodup t ht)).mp hp).1
  · intro p t hp hu ht
    rw [ptraceUntrace_apply] at hu
    rw [mem_ptraceUntrace_tracees (h.nodup t ht),ptraceUntrace_apply,h.traced.matched p t hp hu ht]
    refine and_iff_left_of_imp ?_
    rintro htr ⟨rfl,rfl⟩
    exact ho hu htr
  · intro p hp
    rw [ptraceUntrace_apply]
    exact h.tracer p hp

theorem detach_inv (h : Inv s) (htra : (s.procs tracee).tracer=tracer)
    (hs : p.process=(s.procs tracee).process ∧ p.finished=(s.procs tracee).finished ∧
      p.deleted=(s.procs tracee).deleted ∧ p.tracer=0 ∧
        p.tracees=(ptraceUntrace tracer tracee s.procs tracee).tracees) :
    Inv (s.setProcs (update (ptraceUntrace tracer tracee s.procs) tracee p)) := by
  obtain ⟨hpr,hfin,hd,hz,htr⟩ := hs
  have hfi : ∀ {α : Type} (f : Process → α), f p=f (s.procs tracee) →
      (∀ q, f (ptraceUntrace tracer tracee s.procs q)=f (s.procs q)) →
        ∀ q, f (update (ptraceUntrace tracer tracee s.procs) tracee p q)=f (s.procs q) := by
    intro α f hp hf q
    rw [update_field f (hp.trans (hf tracee).symm),hf]
  have hfin := hfi _ hfin fun q => by rw [ptraceUntrace_apply]
  have htr := update_field _ htr
  refine setProcs_inv h (hfi _ hd fun q => by rw [ptraceUntrace_apply])
    (hfi _ hpr fun q => by rw [ptraceUntrace_apply]) ?_ ?_ ?_ ?_ ?_
  · intro q hq
    rw [hfin]
    exact hq
  · intro t ht
    rw [htr]
    exact nodup_ptraceUntrace_tracees (h.nodup t ht)
  · intro t q ht hq
    rw [htr] at hq
    exact h.traced.valid t q ht ((mem_ptraceUntrace_tracees (h.nodup t ht)).mp hq).1
  · intro q t hq hu ht
    rw [hfin] at hu
    rw [htr,mem_ptraceUntrace_tracees (h.nodup t ht),h.traced.matched q t hq hu ht,update_apply]
    by_cases hn : q=tracee
    · subst hn
      rw [if_pos rfl,htra]
      have hpos := ht.1
      refine iff_of_false ?_ (by omega)
      exact fun hb => hb.2 ⟨hb.1.symm,rfl⟩
    · rw [if_neg hn,ptraceUntrace_apply]
      exact and_iff_left fun hb => hn hb.2
  · intro q hq
    rw [update_apply]
    split
    · rw [hz]
      exact Nat.lt_of_le_of_lt (Nat.zero_le q) hq.2.1
    · rw [ptraceUntrace_apply]
      exact h.tracer q hq

theorem exit_inv (h : Inv s) (id : Nat) (retval : BitVec 32) :
    Inv (s.setProcs (taskExit id retval s.procs)) := by
  refine setProcs_inv h (fun _ => taskExit_fields.1) (fun _ => taskExit_fields.2.1) ?_ ?_ ?_ ?_ ?_
  · intro p hp
    rw [taskExit_fields.2.2.1,hp,Bool.or_true]
  · intro t ht
    rw [taskExit_fields.2.2.2]
    split
    · exact .nil
    · exact h.nodup t ht
  · intro t p ht hp
    exact h.traced.valid t p ht (mem_taskExit_tracees hp)
  · intro p t hp hu ht
    rw [taskExit_fields.2.2.1,Bool.or_eq_false_iff,decide_eq_false_iff_not] at hu
    obtain ⟨hne,hu⟩ := hu
    have hm := h.traced.matched p
    have hpos := ht.1
    rw [taskExit_fields.2.2.2,taskExit_of_ne hne]
    by_cases hid : t=id
    · -- the list is empty, and all that were in it are let go
      subst hid
      rw [if_pos rfl]
      refine iff_of_false not_mem_nil ?_
      by_cases htr : (s.procs p).tracer=t
      · rw [if_pos ⟨(hm t hp hu ht).mpr htr,hp.2.2,htr⟩]
        exact fun hz => absurd hpos (Nat.not_lt.mpr (Nat.le_of_eq hz.symm))
      · rw [if_neg fun ha => htr ha.2.2]
        exact htr
    · rw [if_neg hid,hm t hp hu ht]
      split
      · have hz : (s.procs p).release.tracer=0 := rfl
        omega
      · rfl
  · intro p hp
    exact Nat.lt_of_le_of_lt taskExit_tracer_le (h.tracer p hp)
end Procs

theorem spawnProcess_procs (hp : p≠s.nextPid) :
    (spawnProcess parent process tasklet s).procs p=s.procs p := update_of_ne hp _ _

theorem spawnProcess_new : (spawnProcess parent process tasklet s).procs s.nextPid =
      newProcess process (s.procs parent).job (s.procs parent).user tasklet :=
  update_self ..

theorem spawnProcess_valid (parent process : Nat) (tasklet : Bool) (p : Nat)
    (hpos : 0 < s.nextPid) :
    (spawnProcess parent process tasklet s).Valid p ↔ p=s.nextPid ∨ s.Valid p := by
  have hn : (spawnProcess parent process tasklet s).nextPid=s.nextPid+1 := rfl
  rw [State.Valid]
  by_cases hp : p=s.nextPid
  · subst hp
    rw [spawnProcess_new]
    exact iff_of_true ⟨hpos,lt_succ_self _,rfl⟩ (.inl rfl)
  · rw [spawnProcess_procs hp,or_iff_right hp]
    refine and_congr_right fun _ => and_congr_left fun _ => ?_
    omega

theorem spawnProcess_tree (h : Tree s) (hpa : s.Valid parent) :
    Tree (spawnProcess parent process tasklet s) := by
  have hpos : 0 < s.nextPid := Nat.lt_trans h.root.1 h.root.2.1
  have hv := fun p => spawnProcess_valid parent process tasklet p hpos
  have hne : ∀ p, s.Valid p → p≠s.nextPid := fun p hp => Nat.ne_of_lt hp.2.1
  have hold : ∀ p, p≠s.nextPid → (spawnProcess parent process tasklet s).parent p=s.parent p :=
    fun p hp => update_of_ne hp _ _
  have hn : (spawnProcess parent process tasklet s).parent s.nextPid=some parent := update_self ..
  have hchn : ∀ q, (spawnProcess parent process tasklet s).children q =
      s.children q++if q=parent then [s.nextPid] else [] := by
    intro q
    refine (update_apply ..).trans ?_
    split
    · rename_i hq
      rw [hq]
    · exact (append_nil _).symm
  have hmem : ∀ q c, c∈(spawnProcess parent process tasklet s).children q ↔
      c∈s.children q ∨ q=parent ∧ c=s.nextPid := by
    intro q c
    rw [hchn]
    by_cases hq : q=parent <;> simp
  refine ⟨?_,?_,?_,?_,?_⟩
  · exact (hv _).mpr (.inr h.root)
  · rw [hold _ (hne _ h.root)]
    exact h.top
  · intro q c hc
    rcases (hmem q c).mp hc with hc | ⟨rfl,rfl⟩
    · obtain ⟨hc,hq⟩ := h.child q c hc
      rw [hold c (hne c hc)]
      exact ⟨(hv c).mpr (.inr hc),hq⟩
    · exact ⟨(hv _).mpr (.inl rfl),hn⟩
  · intro c q hc hq
    rcases (hv c).mp hc with rfl | hc
    · rw [hn] at hq
      obtain rfl := some.inj hq
      exact ⟨(hv _).mpr (.inr hpa),(hmem _ _).mpr (.inr ⟨rfl,rfl⟩),(hne _ hpa).symm⟩
    · rw [hold c (hne c hc)] at hq
      obtain ⟨hva,hch,hi⟩ := h.parent c q hc hq
      exact ⟨(hv q).mpr (.inr hva),(hmem q c).mpr (.inl hch),hi⟩
  · intro q
    rw [hchn]
    split
    · rw [nodup_append]
      refine ⟨h.nodup q,pairwise_singleton _ _,?_⟩
      intro a ha b hb heq
      rw [mem_singleton.mp hb] at heq
      exact hne a (h.child q a ha).1 heq
    · rw [append_nil]
      exact h.nodup q

theorem spawnProcess_inv (tasklet : Bool) (h : Inv s) (hpa : s.Valid parent)
    (hpr : 0<process ∧ process ≤ s.nextPid) : Inv (spawnProcess parent process tasklet s) := by
  have hpos : 0 < s.nextPid := Nat.lt_trans h.tree.root.1 h.tree.root.2.1
  have hv := fun p => spawnProcess_valid parent process tasklet p hpos
  have hne : ∀ p, s.Valid p → p≠s.nextPid := fun p hp => Nat.ne_of_lt hp.2.1
  have hold : ∀ p, s.Valid p → (spawnProcess parent process tasklet s).procs p=s.procs p :=
    fun p hp => spawnProcess_procs (hne p hp)
  refine ⟨⟨?_,?_⟩,spawnProcess_tree h.tree hpa,?_,?_,?_,?_⟩
  · intro t p ht hp
    rcases (hv t).mp ht with rfl | ht
    · rw [spawnProcess_new] at hp
      exact absurd hp not_mem_nil
    · rw [hold t ht] at hp
      exact (hv p).mpr (.inr (h.traced.valid t p ht hp))
  · intro p t hp hu ht
    rcases (hv t).mp ht with rfl | hold_t
    · -- nobody is traced by a process that has just been created
      rw [spawnProcess_new]
      refine iff_of_false not_mem_nil ?_
      rcases (hv p).mp hp with rfl | hp
      · rw [spawnProcess_new]
        exact Nat.ne_of_lt hpos
      · rw [hold p hp]
        exact Nat.ne_of_lt (h.tracer p hp)
    · rw [hold t hold_t]
      rcases (hv p).mp hp with rfl | hp
      · rw [spawnProcess_new]
        refine iff_of_false ?_ (Nat.ne_of_lt hold_t.1)
        exact fun hmem => hne _ (h.traced.valid t _ hold_t hmem) rfl
      · rw [hold p hp] at hu ⊢
        exact h.traced.matched p t hp hu hold_t
  · intro t ht
    rcases (hv t).mp ht with rfl | ht
    · rw [spawnProcess_new]
      exact .nil
    · rw [hold t ht]
      exact h.nodup t ht
  · intro p hp
    by_cases hnew : p=s.nextPid
    · rw [hnew,spawnProcess_new] at hp
      exact absurd hp Bool.false_ne_true
    · rw [spawnProcess_procs hnew] at hp ⊢
      exact h.deleted p hp
  · intro p hp
    rcases (hv p).mp hp with rfl | hp
    · rw [spawnProcess_new]
      exact ⟨hpr.1,lt_succ_of_le hpr.2⟩
    · rw [hold p hp]
      exact ⟨(h.leader p hp).1,lt_succ_of_lt (h.leader p hp).2⟩
  · intro p hp
    rcases (hv p).mp hp with rfl | hp
    · rw [spawnProcess_new]
      exact succ_pos _
    · rw [hold p hp]
      exact lt_succ_of_lt (h.tracer p hp)

theorem processDelete_eq (hd : (s.procs c).deleted=false) (hc : c≠init)
    (hp : s.parent c=some q) : processDelete c s =
      { procs := update s.procs c { s.procs c with deleted := true }
        parent := fun id => if id∈s.children c then some init else s.parent id
        children := (treeRemoveReparentRoot c s).children
        nextPid := s.nextPid } := by
  have hg : ¬((s.procs c).deleted=true ∨ c=init) := by
    rw [hd]
    exact not_or.mpr ⟨Bool.false_ne_true,hc⟩
  rw [processDelete,if_neg hg]
  simp [treeRemoveReparentRoot,hp,State.setProc,State.setProcs]

theorem treeRemove_children (hp : s.parent c=some q) :
    (treeRemoveReparentRoot c s).children x=if x=c then []
      else (if x=q then (s.children x).erase c else s.children x) ++
        if x=init then s.children c else [] := by
  simp only [treeRemoveReparentRoot,hp,update_apply]
  by_cases hi : x=init
  · subst hi
    by_cases hq : init=q <;> simp [hq]
  by_cases hq : x=q
  · subst hq
    simp [hi]
  · simp [hi,hq]

private theorem mem_treeRemove_children (h : Tree s) (hc : s.Valid c) (hp : s.parent c=some q)
    (x d : Nat) : d∈(treeRemoveReparentRoot c s).children x ↔
      x≠c ∧ d≠c ∧ (d∈s.children x ∨ x=init ∧ d∈s.children c) := by
  have hs : ∀ d∈s.children c, d≠c := by
    intro d hd heq
    obtain ⟨hv,hpa⟩ := h.child c d hd
    exact (h.parent d c hv hpa).2.2 heq
  have he : d∈(if x=q then (s.children x).erase c else s.children x) ↔
      d≠c ∧ d∈s.children x := by
    split
    · exact (h.nodup x).mem_erase_iff
    rename_i hx
    refine (and_iff_right_of_imp ?_).symm
    rintro hd rfl
    exact hx (some.inj ((h.child x d hd).2.symm.trans hp))
  rw [treeRemove_children hp]
  by_cases hx : x=c
  · simp [hx]
  rw [if_neg hx,mem_append,he]
  by_cases hi : x=init
  · rw [if_pos hi]
    constructor
    · rintro (⟨hd,hmem⟩ | hmem)
      · exact ⟨hx,hd,.inl hmem⟩
      · exact ⟨hx,hs d hmem,.inr ⟨hi,hmem⟩⟩
    · rintro ⟨-,hd,hmem | ⟨-,hmem⟩⟩
      · exact .inl ⟨hd,hmem⟩
      · exact .inr hmem
  · simp only [hi,if_false,false_and,or_false,not_mem_nil]
    exact (and_iff_right hx).symm

theorem processDelete_tree (h : Tree s) (hc : s.Valid c) (hi : c≠init) (hp : s.parent c=some q)
    (hv : ∀ p, (processDelete c s).Valid p ↔ p≠c ∧ s.Valid p) : Tree (processDelete c s) := by
  have hpa : (processDelete c s).parent =
      fun id => if id∈s.children c then some init else s.parent id := by
    rw [processDelete_eq hc.2.2 hi hp]
  have hchn : (processDelete c s).children=(treeRemoveReparentRoot c s).children := by
    rw [processDelete_eq hc.2.2 hi hp]
  have hmem := mem_treeRemove_children h hc hp
  have hor : ∀ d, d∈s.children c → s.parent d=some c := fun d hd => (h.child c d hd).2
  refine ⟨(hv _).mpr ⟨hi.symm,h.root⟩,?_,?_,?_,?_⟩
  · rw [hpa]
    refine (if_neg fun hr => ?_).trans h.top
    exact absurd ((hor _ hr).symm.trans h.top) (some_ne_none c)
  · intro x d hd
    rw [hchn] at hd
    obtain ⟨hx,hdc,hold | ⟨rfl,ho⟩⟩ := (hmem x d).mp hd
    · obtain ⟨hd,hpar⟩ := h.child x d hold
      refine ⟨(hv d).mpr ⟨hdc,hd⟩,?_⟩
      rw [hpa]
      refine (if_neg fun ho => ?_).trans hpar
      exact hx (some.inj (hpar.symm.trans (hor d ho)))
    · refine ⟨(hv d).mpr ⟨hdc,(h.child c d ho).1⟩,?_⟩
      rw [hpa]
      exact if_pos ho
  · intro d x hd hx
    obtain ⟨hdc,hd⟩ := (hv d).mp hd
    rw [hpa] at hx
    rw [hchn]
    by_cases ho : d∈s.children c
    · simp only [if_pos ho,some.injEq] at hx
      subst hx
      refine ⟨(hv _).mpr ⟨hi.symm,h.root⟩,(hmem _ d).mpr ⟨hi.symm,hdc,.inr ⟨rfl,ho⟩⟩,?_⟩
      rintro rfl
      exact absurd ((hor _ ho).symm.trans h.top) (some_ne_none c)
    · simp only [if_neg ho] at hx
      obtain ⟨hva,hch,hir⟩ := h.parent d x hd hx
      have hxc : x≠c := by
        rintro rfl
        exact ho hch
      exact ⟨(hv x).mpr ⟨hxc,hva⟩,(hmem x d).mpr ⟨hxc,hdc,.inl hch⟩,hir⟩
  · intro x
    rw [hchn,treeRemove_children hp]
    split
    · exact .nil
    rename_i hx
    rw [nodup_append]
    refine ⟨?_,?_,?_⟩
    · split
      · exact (h.nodup x).erase c
      · exact h.nodup x
    · split
      · exact h.nodup c
      · exact .nil
    intro a ha b hb heq
    subst heq
    have hax : a∈s.children x := by
      split at ha
      · exact mem_of_mem_erase ha
      · exact ha
    split at hb
    · exact hx (some.inj ((h.child x a hax).2.symm.trans (hor a hb)))
    · exact absurd hb not_mem_nil

theorem processDelete_valid (hc : s.Valid c) (hi : c≠init) (hpa : s.parent c=some q)
    (p : Nat) : (processDelete c s).Valid p ↔ p≠c ∧ s.Valid p := by
  rw [processDelete_eq hc.2.2 hi hpa,State.Valid,State.Valid]
  by_cases hp : p=c
  · subst hp
    simp
  · simp [hp]

theorem processDelete_field (f : Process → α)
    (hf : ∀ p : Process, f { p with deleted := true }=f p) (hc : s.Valid c) (hi : c≠init)
    (hp : s.parent c=some q) (p : Nat) : f ((processDelete c s).procs p)=f (s.procs p) := by
  rw [processDelete_eq hc.2.2 hi hp]
  exact update_field f (hf _) p

def Unlisted (s : State) (c : Nat) : Prop := ∀ t, s.Valid t → t≠c → c∉(s.procs t).tracees

theorem processDelete_inv (h : Inv s) (hc : s.Valid c) (hi : c≠init)
    (hpa : s.parent c=some q) (hf : (s.procs c).finished=true)
    (hun : Unlisted s c) : Inv (processDelete c s) := by
  have hv := processDelete_valid hc hi hpa
  have htr := processDelete_field Process.tracees (fun _ => rfl) hc hi hpa
  have hf' := processDelete_field Process.finished (fun _ => rfl) hc hi hpa
  have hnp : (processDelete c s).nextPid=s.nextPid := by
    rw [processDelete_eq hc.2.2 hi hpa]
  refine ⟨⟨?_,?_⟩,processDelete_tree h.tree hc hi hpa hv,?_,?_,?_,?_⟩
  · intro t p ht hp
    obtain ⟨htc,ht⟩ := (hv t).mp ht
    rw [htr] at hp
    refine (hv p).mpr ⟨?_,h.traced.valid t p ht hp⟩
    exact fun heq => hun t ht htc (heq ▸ hp)
  · intro p t hp hu ht
    rw [hf'] at hu
    rw [htr,processDelete_field Process.tracer (fun _ => rfl) hc hi hpa]
    exact h.traced.matched p t ((hv p).mp hp).2 hu ((hv t).mp ht).2
  · intro t ht
    rw [htr]
    exact h.nodup t ((hv t).mp ht).2
  · intro p hp
    rw [hf']
    by_cases hpc : p=c
    · rw [hpc]
      exact hf
    · rw [processDelete_eq hc.2.2 hi hpa] at hp
      simp only [update_of_ne hpc] at hp
      exact h.deleted p hp
  · intro p hp
    rw [processDelete_field Process.process (fun _ => rfl) hc hi hpa,hnp]
    exact h.leader p ((hv p).mp hp).2
  · intro p hp
    rw [processDelete_field Process.tracer (fun _ => rfl) hc hi hpa,hnp]
    exact h.tracer p ((hv p).mp hp).2
end RazionOS.Kernel.Tracing
