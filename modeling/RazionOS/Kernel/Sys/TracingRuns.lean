import RazionOS.Framework.Runs
import RazionOS.Kernel.Sys.TracingInv

/-! # Tracing over runs -/

namespace RazionOS.Kernel.Tracing
open Framework Waitpid

/-- The leader is still there, and so is the tracer if there is one for the new process. -/
def Forkable (s : State) (caller : Nat) (traced : Bool) : Prop :=
  (s.procs (s.procs caller).process).deleted=false ∧
    (traced=true → (s.procs caller).tracer≠0 → s.Valid (s.procs caller).tracer)

theorem spawnProcess_tracer (process : Nat) (h : Inv s) (hc : s.Valid caller) :
    (spawnProcess (s.procs caller).process process (s.procs caller).tasklet s).Valid
      (s.procs caller).tracer ↔ s.Valid (s.procs caller).tracer := by
  rw [spawnProcess_valid _ _ _ _ (Nat.lt_trans h.tree.root.1 h.tree.root.2.1)]
  exact or_iff_right (Nat.ne_of_lt (h.tracer caller hc))

private theorem forkWith_inv (h : Inv s) (hc : s.Valid caller)
    (hp : 0<process ∧ process ≤ s.nextPid)
    (hfo : Forkable s caller traced) : ∃ r, forkWith caller process traced s = .ok r ∧ Inv r.2 := by
  obtain ⟨hl,htra⟩ := hfo
  have hv : s.Valid (s.procs caller).process := ⟨(h.leader caller hc).1,(h.leader caller hc).2,hl⟩
  have hs := spawnProcess_inv (s.procs caller).tasklet h hv hp
  have hn := spawnProcess_valid (s.procs caller).process process (s.procs caller).tasklet
    s.nextPid (Nat.lt_trans h.tree.root.1 h.tree.root.2.1)
  simp only [forkWith,if_neg (Bool.eq_false_iff.mp hl)]
  split
  · rename_i htr
    obtain ⟨htr,hne⟩ := Bool.and_eq_true_iff.mp htr
    have htra' := (spawnProcess_tracer process h hc).mpr (htra htr (bne_iff_ne.mp hne))
    cases hf : processFromPid (s.procs caller).tracer
        _ with
    | none => exact absurd htra' (processFromPid_eq_none.mp hf)
    | some tracer =>
      refine ⟨_,rfl,trace_inv hs (processFromPid_valid hf) (hn.mpr (.inl rfl)) ?_⟩
      -- the new process is not listed by anybody yet
      intro hu t ht hmem
      have hz := (hs.traced.matched _ t (hn.mpr (.inl rfl)) hu ht).mp hmem
      rw [spawnProcess_new] at hz
      exact absurd ht.1 (Nat.not_lt.mpr (Nat.le_of_eq hz.symm))
  · exact ⟨_,rfl,hs⟩

private theorem forkWith_forkable (h : Inv s) (hc : s.Valid caller)
    (hok : forkWith caller process traced s = .ok r) : Forkable s caller traced := by
  simp only [forkWith] at hok
  split at hok
  · cases hok
  rename_i hl
  refine ⟨Bool.eq_false_iff.mpr hl,?_⟩
  intro ht hne
  rw [if_pos (Bool.and_eq_true_iff.mpr ⟨ht,bne_iff_ne.mpr hne⟩)] at hok
  by_contra hi
  have hn := processFromPid_eq_none.mpr (mt (spawnProcess_tracer process h hc).mp hi)
  rw [hn] at hok
  cases hok

def Reapable (s : State) (caller : Nat) (pid : Int) (options : Options) : Prop :=
  (s.procs (s.procs caller).process).deleted=false ∧ ∀ c, (findCandidate s.procs caller pid options
      (s.children (s.procs caller).process)).candidate=some (c, true) →
        (s.procs c).finished=true → Unlisted s c

theorem waitpid_seen (h : Inv s) (hca : s.Valid caller) :
    ((findCandidate s.procs caller pid options (s.children (s.procs caller).process)).seen.any
      fun c => (s.procs c).deleted)=false := by
  rw [List.any_eq_false]
  intro c hc
  rcases findCandidate_seen hc with hch | ht
  · rw [(h.tree.child _ c hch).1.2.2]
    exact Bool.false_ne_true
  · rw [(h.traced.valid caller c hca ht).2.2]
    exact Bool.false_ne_true

/-- The child with the part of the status that has been reported taken away. -/
def reported (c : Nat) (s : State) : State :=
  s.setProc c { s.procs c with status := (s.procs c).status &&& ~~~0xFF }

private theorem reported_inv (h : Inv s) : Inv (reported c s) :=
  setProc_inv h c _ ⟨rfl,rfl,rfl,rfl,rfl⟩

theorem reported_field (f : Process → α)
    (hf : ∀ (p : Process) (status : BitVec 32), f { p with status }=f p) :
    f ((reported c s).procs p)=f (s.procs p) := update_field f (hf _ _) p

theorem reported_valid (c : Nat) : (reported c s).Valid p ↔ s.Valid p := by
  rw [State.Valid,reported_field Process.deleted fun _ _ => rfl]
  rfl

private theorem reported_unlisted : Unlisted (reported c s) c ↔ Unlisted s c := by
  refine forall_congr' fun t => ?_
  rw [reported_valid,reported_field Process.tracees fun _ _ => rfl]

section
variable (h : Inv s) (hca : s.Valid caller)
include h hca

theorem waitpid_reap (hl : (s.procs (s.procs caller).process).deleted=false)
    (hc : (findCandidate s.procs caller pid options
      (s.children (s.procs caller).process)).candidate=some (c, true))
    (hfi : (s.procs c).finished=true) :
    waitpid caller pid options s = .ok (processDelete c (reported c s)) ∧ s.Valid c ∧ c≠init ∧
      s.parent c=some (s.procs caller).process := by
  obtain ⟨-,hch,-⟩ | ⟨hf,-⟩ := findCandidate_candidate hc
  · obtain ⟨hv,hp⟩ := h.tree.child _ c hch
    refine ⟨?_,hv,?_,hp⟩
    · simp only [waitpid,if_neg (Bool.eq_false_iff.mp hl),waitpid_seen h hca,hc,if_pos hfi]
      rfl
    · rintro rfl
      exact absurd (hp.symm.trans h.tree.top) (Option.some_ne_none _)
  · exact Bool.noConfusion hf

private theorem waitpid_inv (hr : Reapable s caller pid options) :
    ∃ s', waitpid caller pid options s = .ok s' ∧ Inv s' := by
  obtain ⟨hl,hu⟩ := hr
  cases hc : (findCandidate s.procs caller pid options
      (s.children (s.procs caller).process)).candidate with
  | none =>
    refine ⟨s,?_,h⟩
    simp [waitpid,if_neg (Bool.eq_false_iff.mp hl),waitpid_seen h hca,hc]
  | some found =>
    obtain ⟨c,isParent⟩ := found
    cases isParent with
    | true =>
      by_cases hf : (s.procs c).finished=true
      · obtain ⟨heq,hv,hi,hp⟩ := waitpid_reap h hca hl hc hf
        refine ⟨_,heq,processDelete_inv (reported_inv h) ((reported_valid c).mpr hv) hi
          hp ?_ (reported_unlisted.mpr (hu c hc hf))⟩
        rw [reported_field Process.finished fun _ _ => rfl]
        exact hf
      · refine ⟨reported c s,?_,reported_inv h⟩
        simp only [waitpid,if_neg (Bool.eq_false_iff.mp hl),waitpid_seen h hca,hc,if_neg hf]
        rfl
    | false =>
      simp only [waitpid,if_neg (Bool.eq_false_iff.mp hl),waitpid_seen h hca,Bool.false_eq_true,
        if_false,hc]
      split
      · rename_i ht
        exact ⟨_,rfl,untrace_inv h fun _ => ht⟩
      · exact ⟨s,rfl,h⟩

private theorem waitpid_reapable (hok : waitpid caller pid options s = .ok s') (htr : Traced s') :
    Reapable s caller pid options := by
  have hl : (s.procs (s.procs caller).process).deleted=false := by
    by_contra hd
    rw [waitpid,if_pos (Bool.of_not_eq_false hd)] at hok
    cases hok
  refine ⟨hl,?_⟩
  intro c hcan hf t ht hne hmem
  obtain ⟨heq,hv,hi,hp⟩ := waitpid_reap h hca hl hcan hf
  obtain rfl := Except.ok.inj (heq.symm.trans hok)
  have hc := (reported_valid c).mpr hv
  have hli : c∈((processDelete c (reported c s)).procs t).tracees := by
    rw [processDelete_field Process.tracees (fun _ => rfl) hc hi hp,
      reported_field Process.tracees fun _ _ => rfl]
    exact hmem
  have ht' := (processDelete_valid hc hi hp t).mpr ⟨hne,(reported_valid c).mpr ht⟩
  have hd := htr.valid t c ht' hli
  exact ((processDelete_valid hc hi hp c).mp hd).1 rfl

end

def Allowed (s : State) : Event → Prop
  | .attach caller pid => ∀ tracee, processFromPid pid s=some tracee →
      ¬((s.procs caller).user≠0 ∧ (s.procs caller).user≠(s.procs tracee).user) →
        Free s caller tracee
  | .traceme caller => ∀ tracer, s.parent caller=some tracer → Free s tracer caller
  | .detach caller pid _ => ∀ tracee, processFromPid pid s=some tracee →
      (s.procs tracee).finished=false → (s.procs tracee).tracer=caller →
        (s.procs tracee).suspended=true
  | .fork caller => Forkable s caller (s.procs caller).traceFork
  | .clone caller => Forkable s caller (s.procs caller).traceClone
  | .waitpid caller pid options => Reapable s caller pid options
  | _ => True

def Usable (s : State) (e : Event) : Prop := s.live e.caller=true → Allowed s e

private theorem attach_inv (h : Inv s) (hc : s.Valid caller) (ha : Allowed s (.attach caller pid)) :
    Inv (ptraceAttach caller pid s).2 := by
  rw [ptraceAttach]
  split
  · exact h
  rename_i tracee ht
  split
  · exact h
  · rename_i hp
    exact trace_inv h hc (processFromPid_valid ht) (ha tracee ht hp)

private theorem attach_allowed (h : Traced (ptraceAttach caller pid s).2) :
    Allowed s (.attach caller pid) := by
  intro tracee ht hp
  simp only [ptraceAttach,ht,if_neg hp] at h
  exact trace_free (processFromPid_valid ht) h

private theorem traceme_inv (h : Inv s) (hc : s.Valid caller)
    (ha : Allowed s (.traceme caller)) : Inv (ptraceSelf caller s).2 := by
  rw [ptraceSelf]
  split
  · exact h
  rename_i tracer ht
  exact trace_inv h (h.tree.parent caller tracer hc ht).1 hc (ha tracer ht)

private theorem traceme_allowed (hc : s.Valid caller) (h : Traced (ptraceSelf caller s).2) :
    Allowed s (.traceme caller) := by
  intro tracer ht
  simp only [ptraceSelf,ht] at h
  exact trace_free hc h

private theorem signalAndContinue_field (f : Process → α)
    (hf : ∀ (p : Process) (suspended : Bool) (status : BitVec 32),
      f { p with suspended, status }=f p) :
    f (signalAndContinue sig p)=f p := by
  simp only [signalAndContinue]
  split
  · exact hf p false _
  · exact hf p false p.status

private theorem ptraceDetach_inv (h : Inv s) (ha : Allowed s (.detach caller pid sig)) :
    Inv (ptraceDetach caller pid sig s).2 := by
  simp only [ptraceDetach]
  split
  · exact h
  rename_i tracee htr
  have hfi : ∀ {α : Type} (f : Process → α), (∀ (p : Process) (tracees : List Nat),
      f { p with tracees }=f p) →
        f (ptraceUntrace caller tracee s.procs tracee)=f (s.procs tracee) := by
    intro α f hf
    rw [ptraceUntrace_apply,hf]
  have ht := hfi Process.tracer fun _ _ => rfl
  have hsu := hfi Process.suspended fun _ _ => rfl
  split
  · rename_i hr
    refine untrace_inv h fun hu hm => ?_
    rcases hr with ho | hru
    · exact ho (ht.trans hm)
    · have hs := ha tracee htr hu hm
      exact Bool.false_ne_true (hru.symm.trans (hsu.trans hs))
  · rename_i hm
    have ht := ht.symm.trans (not_not.mp (not_or.mp hm).1)
    refine detach_inv h ht ⟨?_,?_,?_,?_,?_⟩
    · exact (signalAndContinue_field _ (fun _ _ _ => rfl)).trans
        (hfi Process.process fun _ _ => rfl)
    · exact (signalAndContinue_field _ (fun _ _ _ => rfl)).trans
        (hfi Process.finished fun _ _ => rfl)
    · exact (signalAndContinue_field _ (fun _ _ _ => rfl)).trans
        (hfi Process.deleted fun _ _ => rfl)
    · exact signalAndContinue_field Process.tracer (fun _ _ _ => rfl)
    · exact signalAndContinue_field _ (fun _ _ _ => rfl)

private theorem detach_allowed (h : Inv s) (hc : s.Valid caller)
    (ht : Traced (ptraceDetach caller pid sig s).2) : Allowed s (.detach caller pid sig) := by
  intro tracee htr hu htra
  by_contra hru
  have hr : (ptraceDetach caller pid sig s).2 =
      s.setProcs (ptraceUntrace caller tracee s.procs) := by
    simp [ptraceDetach,htr,State.setProcs,ptraceUntrace_apply,Bool.eq_false_iff.mpr hru]
  rw [hr] at ht
  have hv : ∀ p, (s.setProcs (ptraceUntrace caller tracee s.procs)).Valid p ↔ s.Valid p :=
    setProcs_valid fun p => by rw [ptraceUntrace_apply]
  have hm := ht.matched tracee caller ((hv _).mpr (processFromPid_valid htr)) (by
    simp only [State.setProcs,ptraceUntrace_apply]
    exact hu) ((hv _).mpr hc)
  -- the field is left, but the entry is gone
  have hmem := hm.mpr (by
    simp only [State.setProcs,ptraceUntrace_apply]
    exact htra)
  exact ((mem_ptraceUntrace_tracees (h.nodup caller hc)).mp hmem).2 ⟨rfl,rfl⟩

def Lawful (s : State) (e : Event) : Prop := ∃ s', step s e = .ok s' ∧ Traced s'

private theorem call_inv (h : Inv s) (hc : s.Valid e.caller) (ha : Allowed s e) :
    ∃ s', call s e = .ok s' ∧ Inv s' := by
  cases e with
  | attach caller pid => exact ⟨_,rfl,attach_inv h hc ha⟩
  | traceme caller => exact ⟨_,rfl,traceme_inv h hc ha⟩
  | detach caller pid sig => exact ⟨_,rfl,ptraceDetach_inv h ha⟩
  | setoptions caller pid traceFork traceClone =>
    refine ⟨_,rfl,?_⟩
    rw [ptraceSetoptions]
    split
    · exact h
    split
    · exact h
    · exact setProc_inv h _ _ ⟨rfl,rfl,rfl,rfl,rfl⟩
  | fork caller =>
    have hc : s.Valid caller := hc
    have hpos : 0 < s.nextPid := Nat.lt_trans h.tree.root.1 h.tree.root.2.1
    obtain ⟨r,heq,hinv⟩ := forkWith_inv h hc ⟨hpos,Nat.le_refl _⟩ ha
    refine ⟨r.2,?_,hinv⟩
    rw [call,fork,heq]
    rfl
  | clone caller =>
    have hc : s.Valid caller := hc
    have hl := h.leader caller hc
    obtain ⟨r,heq,hinv⟩ := forkWith_inv h hc ⟨hl.1,Nat.le_of_lt hl.2⟩ ha
    refine ⟨r.2,?_,hinv⟩
    rw [call,clone,heq]
    rfl
  | exit caller retval => exact ⟨_,rfl,exit_inv h caller retval⟩
  | waitpid caller pid options => exact waitpid_inv h hc ha
  | stop id status => exact ⟨_,rfl,setProc_inv h id _ ⟨rfl,rfl,rfl,rfl,rfl⟩⟩
  | resume id => exact ⟨_,rfl,setProc_inv h id _ ⟨rfl,rfl,rfl,rfl,rfl⟩⟩

private theorem call_allowed (h : Inv s) (hc : s.Valid e.caller)
    (hok : call s e = .ok s') (ht : Traced s') : Allowed s e := by
  cases e with
  | attach caller pid =>
    obtain rfl := Except.ok.inj hok
    exact attach_allowed ht
  | traceme caller =>
    obtain rfl := Except.ok.inj hok
    exact traceme_allowed hc ht
  | detach caller pid sig =>
    obtain rfl := Except.ok.inj hok
    exact detach_allowed h hc ht
  | fork caller =>
    cases hf : fork caller s with
    | error fault =>
      rw [call,hf] at hok
      cases hok
    | ok r => exact forkWith_forkable h hc hf
  | clone caller =>
    cases hcl : clone caller s with
    | error fault =>
      rw [call,hcl] at hok
      cases hok
    | ok r => exact forkWith_forkable h hc hcl
  | waitpid caller pid options => exact waitpid_reapable h hc hok ht
  | _ => trivial

theorem step_inv (h : Inv s) (hu : Usable s e) : ∃ s', step s e = .ok s' ∧ Inv s' := by
  rw [step]
  by_cases hl : s.live e.caller=true
  · rw [if_pos hl]
    exact call_inv h (live_iff.mp hl).1 (hu hl)
  · rw [if_neg hl]
    exact ⟨s,rfl,h⟩

private theorem lawful_iff (h : Inv s) : Lawful s e ↔ Usable s e := by
  constructor
  · rintro ⟨s',hok,ht⟩ hl
    rw [step,if_pos hl] at hok
    exact call_allowed h (live_iff.mp hl).1 hok ht
  · intro hu
    obtain ⟨s',hok,hinv⟩ := step_inv h hu
    exact ⟨s',hok,hinv.traced⟩

def next (s : State) (e : Event) : State :=
  match step s e with
  | .ok s' => s'
  | .error _ => s

/-- The relation holds along a run just as long as every call is one that keeps it. -/
theorem tracing_lawful_iff (events : List Event) :
    Along next Lawful start events ↔ Along next Usable start events := by
  refine Along.congr ?_ (fun s e h => lawful_iff h) start_inv
  intro s e h hl
  obtain ⟨s',hok,hinv⟩ := step_inv h ((lawful_iff h).mp hl)
  rw [next,hok]
  exact hinv

/-- Two processes attach to a third; a running tracee is detached; a traced child is reaped. -/
theorem tracing_wrong : ¬Traced ([.fork 1, .fork 1, .attach 1 3, .attach 2 3].foldl next start) ∧
    ¬Traced ([.fork 1, .attach 1 2, .detach 1 2 0].foldl next start) ∧
    ¬Traced ([.fork 1, .traceme 2, .exit 2 0, .waitpid 1 (-1) ⟨false,false,false,false⟩].foldl
      next start) := by
  refine ⟨?_,?_,?_⟩
  · intro h
    have hm := (h.matched 3 1 (valid_iff.mp rfl) rfl (valid_iff.mp rfl)).mp (by decide +kernel)
    revert hm
    decide +kernel
  · intro h
    have hm := (h.matched 2 1 (valid_iff.mp rfl) rfl (valid_iff.mp rfl)).mpr rfl
    revert hm
    decide +kernel
  · intro h
    have hv := valid_iff.mpr (h.valid 1 2 (valid_iff.mp rfl) (by decide +kernel))
    revert hv
    decide +kernel
end RazionOS.Kernel.Tracing
