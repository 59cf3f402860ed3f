import RazionOS.Framework.Runs
import RazionOS.Kernel.Sys.ShmRefs

/-! # Shared memory over runs -/

namespace RazionOS.Kernel.Shm
open Framework Finset Function

variable (frames : Nat → Nat)

section Calls
variable {s s' : State}

/-- The path is one or more names, and they are short enough if they are to be created. -/
def PathOk (path : List UInt8) (create : Bool) : Prop :=
  ∃ names, pathNames (path.length+1) path=some names ∧ (create=true → ∀ name∈names, name.length<256)

def numFrames (size : Nat) (s : State) (node : Nat) : Nat :=
  match (s.nodes node).chunk with
  | some c => (s.framesOf c).length
  | none => size/0x1000 + if size%0x1000≠0 then 1 else 0

private theorem shmObtain_inv (h : Inv none s) (hpi : pid < s.procCount)
    (hexit : (s.procs pid).exited=false) (hp : PathOk path true)
    (hf : ∀ node s', getNode path true s = .ok (some node, s') →
      numFrames size s' node≤2^20 ∨ Grows (numFrames size s' node) (s.procs pid)) :
    ∃ r s', shmObtain pid path size frames s = .ok (r, s') ∧ Inv none s' := by
  obtain ⟨names,hna,hlen⟩ := hp
  obtain ⟨r,s1,hg,hs,ht,hlt,hso⟩ := getNodeFrom_spec 0 h.tree hna hlen
  obtain ⟨node,rfl⟩ := Option.ne_none_iff_exists'.mp (hso rfl)
  have hg : getNode path true s = .ok (some node, s1) := hg
  have hf := hf node s1 hg
  have h1 := hs.inv ht h
  have hpi1 : pid < s1.procCount := by
    rw [hs.procCount]
    exact hpi
  rw [← hs.procs] at hf hexit
  simp only [shmObtain,hg,ok_bind]
  cases hch : (s1.nodes node).chunk with
  | none =>
    simp only [numFrames,hch] at hf
    by_cases hsi : size=0
    · simp only [createChunk,if_pos hsi]
      exact ⟨_,s1,rfl,h1⟩
    simp only [createChunk,if_neg hsi]
    generalize hn : size/0x1000+(if size%0x1000≠0 then 1 else 0)=n at hf
    have hpos : 0<n := by
      split at hn <;> omega
    have ha := attachChunk_inv ⟨node,1,(List.range n).map frames,false⟩ h1
      (hlt node rfl) rfl rfl rfl (by simp; omega)
    have hfr : (attachChunk node ⟨node,1,(List.range n).map frames,false⟩ s1).framesOf
        s1.chunkCount=(List.range n).map frames := by
      rw [State.framesOf,attachChunk_chunks,if_pos rfl]
    have hm := mapIn_inv ha hpi1 hexit (by
      rw [hfr,List.length_map,List.length_range]
      exact hf)
    rw [hfr] at hm
    exact ⟨_,_,rfl,hm⟩
  | some c =>
    have hl := (h1.named node c hch).1
    have hfre : ¬(s1.chunks c).freed=true := by
      rw [hl.2]
      exact Bool.false_ne_true
    simp only [numFrames,hch] at hf
    simp only [if_neg hfre]
    obtain ⟨hpos,hcn⟩ := h1.counted c hl
    have hcnt : Inv (some c) (setRefCount c ((s1.chunks c).refCount + 1) s1) := by
      refine setRefCount_inv h1 (by omega) ?_ ?_ ?_
      · rw [hcn,holds,holds,if_pos rfl]
        rfl
      · intro c' hc'
        rw [holds_of_ne hc']
        rfl
      · intro c' hc'
        rw [← Option.some.inj hc']
        exact hl
    have hfr : (setRefCount c ((s1.chunks c).refCount + 1) s1).framesOf c=s1.framesOf c := by
      rw [setRefCount_framesOf]
    have hm := mapIn_inv hcnt hpi1 hexit (by
      rw [hfr]
      exact hf)
    rw [hfr] at hm
    exact ⟨_,_,rfl,hm⟩

private theorem releaseChunk_setProc :
    releaseChunk c (s.setProc pid p)=(releaseChunk c s).map (·.setProc pid p) := by
  simp only [releaseChunk]
  show (if (s.chunks c).freed=true then _ else _)=_
  split
  · rfl
  · show (if (s.chunks c).refCount - 1<1 then _ else _)=_
    split <;> rfl

private theorem setProc_setProc : (s.setProc pid p).setProc pid q=s.setProc pid q := by
  simp [State.setProc]

section
variable (h : Inv none s) (hpi : pid < s.procCount) (hexit : (s.procs pid).exited=false)
include h hpi hexit

private theorem shmRelease_inv (hp : PathOk path false) :
    ∃ r s', shmRelease pid path s = .ok (r, s') ∧ Inv none s' := by
  obtain ⟨names,hn,hlen⟩ := hp
  obtain ⟨r,s1,hg,hs,ht,hlt,-⟩ := getNodeFrom_spec 0 h.tree hn hlen
  have hg : getNode path false s = .ok (r, s1) := hg
  have h1 := hs.inv ht h
  have hpi1 : pid < s1.procCount := by
    rw [hs.procCount]
    exact hpi
  rw [← hs.procs] at hexit
  simp only [shmRelease,hg,bind,Except.bind]
  cases r with
  | none => exact ⟨1,s1,rfl,h1⟩
  | some node =>
    simp only
    cases hc : (s1.nodes node).chunk with
    | none => exact ⟨1,s1,rfl,h1⟩
    | some c =>
      simp only
      cases hfi : (s1.procs pid).mappings.find? fun m => m.chunk == c with
      | none => exact ⟨1,s1,rfl,h1⟩
      | some m =>
        obtain ⟨hm,before,after,hma,hb⟩ := List.find?_eq_some_iff_append.mp hfi
        have hmc : m.chunk=c := by simpa using hm
        have he : (s1.procs pid).mappings.eraseP (fun m => m.chunk == c)=before++after := by
          rw [hma,List.eraseP_append_right _ fun x hx => by simpa using hb x hx,
            List.eraseP_cons_of_pos (p := fun m : Mapping => m.chunk == c) hm]
        -- the chunk is released with the mapping gone already: the order makes no difference
        have ho := (h1.ordered pid hpi1).unmap hma
        have hre := removeMapping_inv h1 hpi1 (hma ▸ List.perm_middle) ho hexit
        rw [hmc] at hre
        obtain ⟨s2,hr,h2,-⟩ := releaseChunk_inv hre
        rw [releaseChunk_setProc] at hr
        cases hf : releaseChunk c s1 with
        | error e =>
          rw [hf] at hr
          cases hr
        | ok t =>
          rw [hf] at hr
          obtain rfl := Except.ok.inj hr
          simp only [releaseChunk_setProc,hf,Except.map,setProc_setProc]
          refine ⟨0,_,rfl,?_⟩
          simp only [State.setProc,update_self,he]
          exact h2

private theorem releaseLoop_inv (hc : (s.procs pid).mappings.length≤count) :
    ∃ s', releaseLoop pid count s = .ok s' ∧ Inv none s' ∧ s'.procCount=s.procCount ∧
      (s'.procs pid).mappings=[] := by
  induction count generalizing s with
  | zero => exact ⟨s,rfl,h,rfl,List.length_eq_zero_iff.mp (Nat.le_zero.mp hc)⟩
  | succ count ih =>
    simp only [releaseLoop]
    rcases hl : (s.procs pid).mappings.getLast? with _ | m
    · exact ⟨s,rfl,h,rfl,List.getLast?_eq_none_iff.mp hl⟩
    have hm : (s.procs pid).mappings=(s.procs pid).mappings.dropLast++[m] := by
      obtain ⟨init,hi⟩ := List.getLast?_eq_some_iff.mp hl
      rw [hi,List.dropLast_concat]
    have ho := (h.ordered pid hpi).remove hm
    rw [List.append_nil] at ho
    have hpe : (s.procs pid).mappings.Perm (m::(s.procs pid).mappings.dropLast) := by
      rw [hm,List.dropLast_concat]
      exact List.perm_append_singleton m _
    obtain ⟨s1,hr,h1,hpr,hpc⟩ := releaseChunk_inv (removeMapping_inv h hpi hpe ho hexit)
    have hp : s1.procs pid = { s.procs pid with mappings := (s.procs pid).mappings.dropLast } := by
      rw [hpr]
      exact update_self ..
    have hlen : (s1.procs pid).mappings.length≤count := by
      rw [hp,List.length_dropLast]
      omega
    simp only [hr]
    obtain ⟨s',heq,hinv,hc',he⟩ := ih h1 (by rw [hpc]; exact hpi) (by rw [hp]; exact hexit) hlen
    exact ⟨s',heq,hinv,hc'.trans hpc,he⟩

end

/-- The path has names, and the chunk at most 2^20 frames unless the heap grows for them. -/
def Usable (s : State) : Event → Prop
  | .spawn => True
  | .exit _ => True
  | .obtain pid path size _ => s.alive pid=true → PathOk path true ∧
      ∀ node s', getNode path true s = .ok (some node, s') →
        numFrames size s' node≤2^20 ∨ Grows (numFrames size s' node) (s.procs pid)
  | .release pid path => s.alive pid=true → PathOk path false

private theorem alive_iff : s.alive pid=true ↔ pid < s.procCount ∧ (s.procs pid).exited=false := by
  simp [State.alive]

private theorem spawn_inv (h : Inv none s) :
    Inv none { s.setProc s.procCount newProc with procCount := s.procCount+1 } := by
  have hcn : ∀ c, State.mappingsOf
      { s.setProc s.procCount newProc with procCount := s.procCount+1 } c=s.mappingsOf c := by
    intro c
    have hs : ∑ pid∈range s.procCount,
        ((s.setProc s.procCount newProc).procs pid).mappings.countP (·.chunk == c) =
          s.mappingsOf c := by
      apply sum_congr rfl
      intro pid hp
      simp [State.setProc,update_of_ne (mem_range.mp hp).ne]
    show ∑ pid∈range (s.procCount+1), _=_
    rw [sum_range_succ]
    simp only [State.setProc,update_self] at hs ⊢
    rw [hs]
    rfl
  have hold : ∀ i < s.procCount+1, i≠s.procCount → i < s.procCount := by omega
  have ho : newProc.Ordered s.framesOf := ⟨le_rfl,by decide,by simp [newProc],by simp [newProc]⟩
  refine ⟨⟨h.tree.root,h.tree.children,h.tree.fresh⟩,h.named,?_,h.nonempty,
    setProc_all (P := fun p => ∀ m∈p.mappings, s.Live m.chunk) hold (by simp [newProc]) h.mapped,
    h.held,h.released,setProc_all (P := (Proc.Ordered · s.framesOf)) hold ho h.ordered,
    setProc_all (P := fun p => p.exited=true → p.mappings=[]) hold (fun _ => rfl) h.gone⟩
  intro c hc
  rw [hcn]
  exact h.counted c hc

private theorem exit_inv (h : Inv none s) (hp : pid < s.procCount)
    (hexit : (s.procs pid).exited=false) :
    ∃ s', shmReleaseAll pid s = .ok s' ∧
      Inv none (s'.setProc pid { s'.procs pid with exited := true }) := by
  obtain ⟨s',heq,hinv,hc,he⟩ := releaseLoop_inv h hp hexit le_rfl
  have hp' : pid < s'.procCount := by
    rw [hc]
    exact hp
  have ho := hinv.ordered pid hp'
  refine ⟨s',heq,setProc_inv hinv hp' ⟨ho.laid,ho.aligned,ho.whole,
    ho.has⟩ (hinv.mapped pid hp') hinv.held (fun _ => he) fun _ => rfl⟩

private theorem step_inv (h : Inv none s) (hu : Usable s e) :
    ∃ s', step s e = .ok s' ∧ Inv none s' := by
  cases e with
  | spawn => exact ⟨_,rfl,spawn_inv h⟩
  | obtain pid path size frames =>
    rw [step]
    by_cases ha : s.alive pid=true
    · obtain ⟨hpi,hexit⟩ := alive_iff.mp ha
      obtain ⟨hp,hf⟩ := hu ha
      obtain ⟨r,s',heq,hinv⟩ := shmObtain_inv frames h hpi hexit hp hf
      rw [if_pos ha,heq]
      exact ⟨s',rfl,hinv⟩
    · rw [if_neg ha]
      exact ⟨s,rfl,h⟩
  | release pid path =>
    rw [step]
    by_cases ha : s.alive pid=true
    · obtain ⟨hpi,hexit⟩ := alive_iff.mp ha
      obtain ⟨r,s',heq,hinv⟩ := shmRelease_inv h hpi hexit (hu ha)
      rw [if_pos ha,heq]
      exact ⟨s',rfl,hinv⟩
    · rw [if_neg ha]
      exact ⟨s,rfl,h⟩
  | exit pid =>
    rw [step]
    by_cases ha : s.alive pid=true
    · obtain ⟨hpi,hexit⟩ := alive_iff.mp ha
      obtain ⟨s',heq,hinv⟩ := exit_inv h hpi hexit
      rw [if_pos ha,heq]
      exact ⟨_,rfl,hinv⟩
    · rw [if_neg ha]
      exact ⟨s,rfl,h⟩
end Calls

def next (s : State) (e : Event) : State :=
  match step s e with
  | .ok s' => s'
  | .error _ => s

structure Correct (s : State) : Prop where
  sorted : ∀ pid < s.procCount, (s.procs pid).mappings.Pairwise fun m m' => m.stop ≤ m'.base
  inside : ∀ pid < s.procCount, ∀ m∈(s.procs pid).mappings,
    userShmLow ≤ m.base ∧ m.stop≤(s.procs pid).shmHeap
  pages : ∀ pid < s.procCount, ∀ m∈(s.procs pid).mappings,
    m.Whole ∧ m.Has (s.framesOf m.chunk) (s.procs pid).page
  counted : ∀ c < s.chunkCount, (s.chunks c).freed=false → (s.chunks c).refCount=s.mappingsOf c
  freed : ∀ c < s.chunkCount, (s.chunks c).freed=true ↔ s.mappingsOf c=0
  released : ∀ c < s.chunkCount, s.releasedOf c=if s.mappingsOf c=0 then s.framesOf c else []

private theorem Inv.freed_iff (h : Inv none s) (hc : c < s.chunkCount) :
    (s.chunks c).freed=true ↔ s.mappingsOf c=0 := by
  constructor
  · intro hf
    apply mappingsOf_eq_zero
    intro pid hp m hm hch
    have hl := (h.mapped pid hp m hm).2
    rw [hch,hf] at hl
    exact Bool.noConfusion hl
  · intro hz
    by_contra hf
    obtain ⟨hpos,hcn⟩ := h.counted c ⟨hc,Bool.eq_false_iff.mpr hf⟩
    rw [holds_none] at hcn
    omega

private theorem Inv.correct (h : Inv none s) : Correct s := by
  refine ⟨?_,?_,?_,?_,fun c hc => h.freed_iff hc,?_⟩
  · intro pid hp
    exact (h.ordered pid hp).laid.pairwise
  · intro pid hp m hm
    exact (h.ordered pid hp).laid.bounds hm
  · intro pid hp m hm
    exact ⟨(h.ordered pid hp).whole m hm,(h.ordered pid hp).has m hm⟩
  · intro c hc hf
    rw [(h.counted c ⟨hc,hf⟩).2]
    exact Int.add_zero _
  · intro c hc
    rw [h.released]
    simp [hc,h.freed_iff]

/-- No call of a run of safe calls faults, and the promises are kept after each. -/
theorem shm_correct (events : List Event) (h : Along next Usable install events) :
    Along next (fun s e => ∃ s', step s e = .ok s' ∧ Correct s') install events := by
  have hn : ∀ s e, Inv none s → Usable s e → Inv none (next s e) := by
    intro s e hinv hu
    obtain ⟨s',hs',hinv'⟩ := step_inv hinv hu
    rw [next,hs']
    exact hinv'
  refine h.imp hn ?_ install_inv
  intro s e hinv hu
  obtain ⟨s',hs',hinv'⟩ := step_inv hinv hu
  exact ⟨s',hs',hinv'.correct⟩

theorem shm_correct_shared : Along next (fun s e => ∃ s', step s e = .ok s' ∧ Correct s') install
    [.spawn, .spawn, .obtain 0 [97] 8192 id, .obtain 1 [97] 0 id, .release 0 [97], .exit 1] := by
  apply shm_correct
  refine ⟨trivial,trivial,?_,?_,?_,trivial,trivial⟩
  · intro _
    refine ⟨⟨[[97]],by decide,by decide⟩,?_⟩
    intro node s' h
    cases h
    exact .inl (by decide)
  · intro _
    refine ⟨⟨[[97]],by decide,by decide⟩,?_⟩
    intro node s' h
    cases h
    exact .inl (by decide)
  · intro _
    exact ⟨[[97]],by decide,nofun⟩

private theorem next_obtain (ha : s.alive pid=true) (hn : 0<n)
    (hg : getNode path true s = .ok (some node, s')) (hc : (s'.nodes node).chunk=none)
    (hp : s'.procs pid=p) (hcn : s'.chunkCount=c) :
    next s (.obtain pid path (0x1000*n) frames) =
      (attachChunk node ⟨node,1,(List.range n).map frames,false⟩ s').setProc pid
        (mapIn c ((List.range n).map frames) p).2 := by
  have hs : ¬0x1000 * n=0 := by omega
  have hpg : 0x1000*n/0x1000+(if 0x1000*n%0x1000≠0 then 1 else 0)=n := by
    rw [if_neg (by omega)]
    omega
  simp only [next,step,if_pos ha,shmObtain,hg,ok_bind,hc,createChunk,if_neg hs,hpg]
  rw [← hp,← hcn]
  rfl

private theorem mapIn_newProc (frames : List Nat) : ∃ page,
    (mapIn c frames newProc).2=⟨[⟨c,addrs userShmLow frames.length⟩],
      userShmLow + frames.length*0x1000,page,false⟩ := by
  have hs : findSlot frames.length newProc=⟨addrs userShmLow frames.length,[],[],
      userShmLow + frames.length*0x1000⟩ := by
    rw [findSlot]
    simp only [newProc,findGap,Nat.lt_irrefl,false_and,if_false]
    rw [heapAddrs_eq _ _ (by decide)]
  rw [mapIn,hs]
  exact ⟨_,rfl⟩

private theorem mapIn_tail {frames : List Nat} (hpos : 0<frames.length) (hm : p.mappings=[])
    (hh : p.shmHeap=userShmLow+frames.length*0x1000) :
    (mapIn c frames p).2.mappings=[⟨c,gapAddrs userShmLow frames.length⟩] := by
  have hg : p.shmHeap > userShmLow ∧ p.shmHeap-userShmLow ≥ frames.length*0x1000 := by omega
  simp [mapIn,findSlot,hm,findGap,if_pos hg]

/-- The first mapping is where the heap was, and the second one in the gap that it leaves. -/
theorem obtain_release_obtain (hn : 0<n) :
    let s := [.spawn, .obtain 0 [97] (0x1000*n) frames, .release 0 [97],
      .obtain 0 [97] (0x1000*n) frames].foldl next install
    0 < s.procCount ∧ (s.procs 0).mappings=[⟨1,gapAddrs userShmLow n⟩] := by
  obtain ⟨page,hm⟩ := mapIn_newProc ((List.range n).map frames)
  have hlen : ((List.range n).map frames).length=n := by
    rw [List.length_map,List.length_range]
  rw [List.foldl_cons,List.foldl_cons,
    next_obtain (p := newProc) (c := 0) frames rfl hn rfl rfl rfl rfl,hm,List.foldl_cons,
    List.foldl_cons,next_obtain (c := 1) frames rfl hn rfl rfl rfl rfl]
  refine ⟨Nat.one_pos,(mapIn_tail ?_ rfl rfl).trans ?_⟩
  · rw [hlen]
    exact hn
  · rw [hlen]

/-- Page 2^20 of a gap is page 0 again. -/
theorem not_whole_gapAddrs (hn : 2^20<n) : ¬(Mapping.mk c (gapAddrs start n)).Whole := by
  intro h
  have hv := h.vaddrs
  generalize (Mapping.mk c (gapAddrs start n)).base=base at hv
  have hp : ∀ i<n, start+i*0x1000%2^32=base+i*0x1000 := by
    intro i hi
    have hi' := congrArg (·[i]?) hv
    simpa only [gapAddrs,addrs,List.length_map,List.length_range,List.getElem?_map,
      List.getElem?_range hi,Option.map_some,Option.some.injEq] using hi'
  have hf := hp 0 (by omega)
  have ha := hp (2^20) hn
  omega

private theorem not_correct_big (hn : 2^20<n) :
    ¬Correct ([.spawn, .obtain 0 [97] (0x1000*n) frames, .release 0 [97],
      .obtain 0 [97] (0x1000*n) frames].foldl next install) := by
  intro h
  obtain ⟨hc,hm⟩ := obtain_release_obtain frames (Nat.zero_lt_of_lt hn)
  have hp := h.pages 0 hc ⟨1,gapAddrs userShmLow n⟩ (by
    rw [hm]
    exact List.mem_singleton_self _)
  exact not_whole_gapAddrs hn hp.1

/-- A name that does not fit is written over what is behind the node. -/
theorem obtain_longName (ha : s.alive pid=true) (ht : strtok name=(some name, []))
    (hc : (s.nodes 0).children=[]) (hl : 256<name.length+1) :
    step s (.obtain pid name size frames) = .error .nameOverflow := by
  have hg : getNode name true s = .error .nameOverflow := by
    simp only [getNode,getNodeFrom,ht,hc,findChild,ok_bind,if_pos hl,if_true]
  rw [step,if_pos ha,shmObtain,hg]
  rfl

/-- A chunk of more than 2^20 frames in a gap, a path without a name, and a name of 256 bytes. -/
theorem shm_wrong : ¬Correct ([.spawn, .obtain 0 [97] (0x1000*(2^20+1)) id, .release 0 [97],
      .obtain 0 [97] (0x1000*(2^20+1)) id].foldl next install) ∧
    step (next install .spawn) (.obtain 0 [46] 1 id) = .error .nullPointer ∧
    step (next install .spawn) (.obtain 0 (List.replicate 256 97) 1 id) = .error .nameOverflow := by
  refine ⟨not_correct_big id (Nat.lt_succ_self _),rfl,?_⟩
  exact obtain_longName id rfl (by decide +kernel) rfl (by decide +kernel)
end RazionOS.Kernel.Shm
