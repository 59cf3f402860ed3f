import RazionOS.Kernel.Sys.ShmLayout

/-! # References to shared memory -/

namespace RazionOS.Kernel.Shm
open Finset Function Option State

namespace State

variable (s : State)

def mappingsOf (c : Nat) : Nat :=
  ∑ pid∈range s.procCount, (s.procs pid).mappings.countP (·.chunk == c)

def releasedOf (c : Nat) : List Nat := (s.released.filter (·.1 == c)).map (·.2)
def framesOf (c : Nat) : List Nat := (s.chunks c).frames
def Live (c : Nat) : Prop := c < s.chunkCount ∧ (s.chunks c).freed=false
end State

/-- The children of a node are nodes, and a node that is not there has no chunk. -/
structure Tree (s : State) : Prop where
  root : 0 < s.nodeCount
  children : ∀ node, ∀ child∈(s.nodes node).children, child < s.nodeCount
  fresh : ∀ node, s.nodeCount≤node → (s.nodes node).chunk=none

def holds (held : Option Nat) (c : Nat) : Nat := if held=some c then 1 else 0

/-- What every call keeps. In the middle of one a reference may be held that has no mapping. -/
structure Inv (held : Option Nat) (s : State) : Prop where
  tree : Tree s
  named : ∀ node c, (s.nodes node).chunk=some c → s.Live c ∧ (s.chunks c).parent=node
  counted : ∀ c, s.Live c → 1≤(s.chunks c).refCount ∧
    (s.chunks c).refCount=s.mappingsOf c + holds held c
  nonempty : ∀ c, s.Live c → 0<(s.framesOf c).length
  mapped : ∀ pid < s.procCount, ∀ m∈(s.procs pid).mappings, s.Live m.chunk
  held : ∀ c, held=some c → s.Live c
  released : ∀ c, s.releasedOf c =
    if c < s.chunkCount ∧ (s.chunks c).freed=true then s.framesOf c else []
  ordered : ∀ pid < s.procCount, (s.procs pid).Ordered s.framesOf
  gone : ∀ pid < s.procCount, (s.procs pid).exited=true → (s.procs pid).mappings=[]

theorem install_inv : Inv none install := by
  have hl : ∀ c, ¬install.Live c := fun c h => Nat.not_lt_zero c h.1
  refine ⟨⟨Nat.one_pos,nofun,fun _ _ => rfl⟩,nofun,fun c h => absurd h (hl c),
    fun c h => absurd h (hl c),nofun,nofun,?_,nofun,nofun⟩
  intro c
  rfl

/-- Only the tree of names may differ, and no node of it in its chunk. -/
structure SameChunks (s s' : State) : Prop where
  chunks : s'.chunks=s.chunks
  chunkCount : s'.chunkCount=s.chunkCount
  procs : s'.procs=s.procs
  procCount : s'.procCount=s.procCount
  released : s'.released=s.released
  nodes : ∀ node, (s'.nodes node).chunk=(s.nodes node).chunk

private theorem SameChunks.refl : SameChunks s s := ⟨rfl,rfl,rfl,rfl,rfl,fun _ => rfl⟩

private theorem SameChunks.trans (h : SameChunks s1 s2) (h' : SameChunks s2 s3) :
    SameChunks s1 s3 :=
  ⟨h'.chunks.trans h.chunks,h'.chunkCount.trans h.chunkCount,h'.procs.trans h.procs,
    h'.procCount.trans h.procCount,h'.released.trans h.released,
    fun node => (h'.nodes node).trans (h.nodes node)⟩

theorem SameChunks.inv (h : SameChunks s s') (ht : Tree s') (hinv : Inv held s) : Inv held s' := by
  have hl : ∀ c, s'.Live c ↔ s.Live c := by
    intro c
    rw [Live,Live,h.chunks,h.chunkCount]
  have hma : ∀ c, s'.mappingsOf c=s.mappingsOf c := by
    intro c
    rw [mappingsOf,mappingsOf,h.procs,h.procCount]
  have hf : s'.framesOf=s.framesOf := by
    funext c
    rw [framesOf,framesOf,h.chunks]
  refine ⟨ht,?_,?_,?_,?_,?_,?_,?_,?_⟩
  · intro node c hc
    rw [h.nodes] at hc
    rw [hl,h.chunks]
    exact hinv.named node c hc
  · intro c hc
    rw [h.chunks,hma]
    exact hinv.counted c ((hl c).mp hc)
  · intro c hc
    rw [hf]
    exact hinv.nonempty c ((hl c).mp hc)
  · rw [h.procs,h.procCount]
    intro pid hp m hm
    exact (hl _).mpr (hinv.mapped pid hp m hm)
  · intro c hc
    exact (hl c).mpr (hinv.held c hc)
  · intro c
    rw [releasedOf,h.released,h.chunkCount,h.chunks,hf]
    exact hinv.released c
  · rw [h.procs,h.procCount,hf]
    exact hinv.ordered
  · rw [h.procs,h.procCount]
    exact hinv.gone

section
variable (parent : Nat) (name : List UInt8)
include parent name

theorem insertChild_nodes :
    (insertChild parent name s).nodes node=if node=s.nodeCount then ⟨name,none,[]⟩
      else if node=parent then
        { s.nodes node with children := (s.nodes node).children++[s.nodeCount] }
      else s.nodes node := by
  by_cases hp : node=parent
  · simp [insertChild,setNode,update_apply,hp]
  · simp [insertChild,setNode,update_apply,hp]

theorem insertChild_same (h : Tree s) : SameChunks s (insertChild parent name s) := by
  refine ⟨rfl,rfl,rfl,rfl,rfl,?_⟩
  intro node
  rw [insertChild_nodes]
  split_ifs with hn
  · rw [hn,h.fresh _ le_rfl]
  · rfl
  · rfl

private theorem insertChild_tree (h : Tree s) : Tree (insertChild parent name s) := by
  have hold : ∀ node, ∀ child∈(s.nodes node).children, child < s.nodeCount+1 :=
    fun node child hc => (h.children node child hc).trans (Nat.lt_succ_self _)
  refine ⟨Nat.succ_pos _,?_,?_⟩
  · intro node child hc
    rw [insertChild_nodes] at hc
    split_ifs at hc
    · exact absurd hc List.not_mem_nil
    · rcases List.mem_append.mp hc with hc | ha
      · exact hold node child hc
      · rw [List.mem_singleton.mp ha]
        exact Nat.lt_succ_self _
    · exact hold node child hc
  · intro node hn
    rw [(insertChild_same parent name h).nodes]
    exact h.fresh node ((Nat.le_succ _).trans hn)

end

/-- The names on a path, if `strtok_r` finds one each time that it is asked. -/
def pathNames : Nat → List UInt8 → Option (List (List UInt8))
  | 0, _ => none
  | rounds+1, path =>
    match strtok path with
    | (none, _) => none
    | (some name, save) =>
      if save=[] then some [name] else (pathNames rounds save).map (name :: ·)

private theorem findChild_ok (nodes : Nat → Node) (name : List UInt8) (children : List Nat) :
    ∃ r, findChild nodes (some name) children = .ok r ∧
      ∀ node, r=some node → node∈children := by
  induction children with
  | nil => exact ⟨none,rfl,fun node h => absurd h.symm (some_ne_none node)⟩
  | cons node children ih =>
    rw [findChild]
    split
    · refine ⟨some node,rfl,fun found h => ?_⟩
      rw [← some.inj h]
      exact List.mem_cons_self
    · obtain ⟨r,heq,hmem⟩ := ih
      exact ⟨r,heq,fun found h => List.mem_cons_of_mem node (hmem found h)⟩

theorem getNodeFrom_spec (parent : Nat) (ht : Tree s) (hn : pathNames rounds path=some names)
    (hlen : create=true → ∀ name∈names, name.length<256) :
    ∃ r s', getNodeFrom rounds path create parent s = .ok (r, s') ∧ SameChunks s s' ∧ Tree s' ∧
      (∀ node, r=some node → node < s'.nodeCount) ∧ (create=true → r≠none) := by
  induction rounds generalizing path names parent s with
  | zero => exact absurd hn.symm (some_ne_none names)
  | succ rounds ih =>
    rcases hto : strtok path with ⟨_ | name,save⟩
    · rw [pathNames,hto] at hn
      exact absurd hn.symm (some_ne_none names)
    rw [pathNames,hto] at hn
    simp only at hn
    -- the first name, and what the rest of the path is when there is one
    have hmem : name∈names := by
      split at hn
      · cases hn
        exact List.mem_singleton_self name
      · obtain ⟨rest,-,rfl⟩ := map_eq_some_iff.mp hn
        exact List.mem_cons_self
    have hr : save≠[] → ∃ rest, pathNames rounds save=some rest ∧
        (create=true → ∀ x∈rest, x.length<256) := by
      intro hs
      rw [if_neg hs,map_eq_some_iff] at hn
      obtain ⟨rest,hr,rfl⟩ := hn
      exact ⟨rest,hr,fun hcr x hx => hlen hcr x (List.mem_cons_of_mem name hx)⟩
    obtain ⟨child,hc,hcm⟩ := findChild_ok s.nodes name (s.nodes parent).children
    simp only [getNodeFrom,hto,hc]
    cases child with
    | some node =>
      by_cases hs : save=[]
      · simp only [if_pos hs]
        refine ⟨some node,s,rfl,.refl,ht,?_,fun _ => some_ne_none node⟩
        intro found hf
        rw [← some.inj hf]
        exact ht.children parent node (hcm node rfl)
      · obtain ⟨rest,hn,hlen⟩ := hr hs
        simp only [if_neg hs]
        exact ih node ht hn hlen
    | none =>
      cases create with
      | false =>
        exact ⟨none,s,rfl,.refl,ht,fun node h => absurd h.symm (some_ne_none node),
          fun h => absurd h Bool.false_ne_true⟩
      | true =>
        have hsa := insertChild_same parent name ht
        have ht' := insertChild_tree parent name ht
        have hsh := hlen rfl name hmem
        simp only [if_neg (show ¬256<name.length+1 by omega)]
        by_cases hs : save=[]
        · simp only [if_pos hs]
          refine ⟨_,_,rfl,hsa,ht',?_,fun _ => some_ne_none _⟩
          intro found hf
          rw [← some.inj hf]
          exact Nat.lt_succ_self _
        · obtain ⟨rest,hn,hlen⟩ := hr hs
          simp only [if_neg hs]
          obtain ⟨r,s',heq,hm,ht'',hlt,hf⟩ := ih _ ht' hn hlen
          exact ⟨r,s',heq,hsa.trans hm,ht'',hlt,fun _ => hf rfl⟩

section References
variable {s s' : State}

private theorem mappingsOf_setProc (hp : pid < s.procCount) (c : Nat) :
    (s.setProc pid p).mappingsOf c + (s.procs pid).mappings.countP (·.chunk == c) =
      s.mappingsOf c + p.mappings.countP (·.chunk == c) := by
  have hmem : pid∈range s.procCount := mem_range.mpr hp
  have hr : ∑ i∈(range s.procCount).erase pid,
      ((s.setProc pid p).procs i).mappings.countP (·.chunk == c) =
        ∑ i∈(range s.procCount).erase pid, (s.procs i).mappings.countP (·.chunk == c) := by
    apply sum_congr rfl
    intro i hi
    simp [setProc,update_of_ne (ne_of_mem_erase hi)]
  have hs : ((s.setProc pid p).procs pid)=p := update_self ..
  rw [mappingsOf,mappingsOf]
  show ∑ i∈range s.procCount, _+_=_
  rw [← add_sum_erase _ _ hmem,← add_sum_erase _ _ hmem,hs]
  omega

private theorem mappingsOf_pos (hp : pid < s.procCount) (hm : m∈(s.procs pid).mappings) :
    0 < s.mappingsOf m.chunk := by
  have hc : 0<(s.procs pid).mappings.countP (·.chunk == m.chunk) :=
    List.countP_pos_iff.mpr ⟨m,hm,beq_self_eq_true _⟩
  rw [mappingsOf,← add_sum_erase _ _ (mem_range.mpr hp)]
  omega

theorem setProc_all {P : Proc → Prop} (hn : ∀ i<n, i≠pid → i < s.procCount) (hp : P p)
    (h : ∀ i < s.procCount, P (s.procs i)) : ∀ i<n, P ((s.setProc pid p).procs i) := by
  intro i hi
  by_cases hs : i=pid
  · simp only [setProc,hs,update_self]
    exact hp
  · simp only [setProc,update_of_ne hs]
    exact h i (hn i hi hs)

theorem setProc_inv {held' : Option Nat} (h : Inv held s) (hp : pid < s.procCount)
    (ho : p.Ordered s.framesOf) (hl : ∀ m∈p.mappings, s.Live m.chunk)
    (hh : ∀ c, held' = some c → s.Live c) (hg : p.exited=true → p.mappings=[])
    (hcnt : ∀ c, p.mappings.countP (·.chunk == c) + holds held' c =
      (s.procs pid).mappings.countP (·.chunk == c) + holds held c) :
    Inv held' (s.setProc pid p) := by
  have hs : ∀ i < s.procCount, i≠pid → i < s.procCount := fun i hi _ => hi
  refine ⟨⟨h.tree.root,h.tree.children,h.tree.fresh⟩,h.named,?_,h.nonempty,
    setProc_all (P := fun p => ∀ m∈p.mappings, s.Live m.chunk) hs hl h.mapped,hh,
    h.released,setProc_all (P := (Proc.Ordered · s.framesOf)) hs ho h.ordered,
    setProc_all (P := fun p => p.exited=true → p.mappings=[]) hs hg h.gone⟩
  intro c hc
  obtain ⟨hpos,hcn⟩ := h.counted c hc
  have hsu := mappingsOf_setProc (p := p) hp c
  have hc := hcnt c
  refine ⟨hpos,?_⟩
  show (s.chunks c).refCount=((s.setProc pid p).mappingsOf c : Int) + holds held' c
  omega

theorem removeMapping_inv (h : Inv none s) (hpi : pid < s.procCount)
    (hp : (s.procs pid).mappings.Perm (m::p.mappings)) (ho : p.Ordered s.framesOf)
    (hexit : p.exited=false) : Inv (some m.chunk) (s.setProc pid p) := by
  have hl : ∀ x∈m::p.mappings, s.Live x.chunk :=
    fun x hx => h.mapped pid hpi x (hp.mem_iff.mpr hx)
  refine setProc_inv h hpi ho (fun x hx => hl x (List.mem_cons_of_mem m hx)) ?_
    (fun h => absurd (hexit.symm.trans h) Bool.false_ne_true) ?_
  · intro c hc
    rw [← some.inj hc]
    exact hl m List.mem_cons_self
  · intro c
    rw [hp.countP_eq,List.countP_cons]
    simp [holds]

private theorem addMapping_inv (h : Inv (some c) s) (hpi : pid < s.procCount) (hm : m.chunk=c)
    (hp : p.mappings.Perm (m::(s.procs pid).mappings)) (ho : p.Ordered s.framesOf)
    (hexit : p.exited=false) : Inv none (s.setProc pid p) := by
  refine setProc_inv h hpi ho ?_ (fun c hc => absurd hc.symm (some_ne_none c))
    (fun h => absurd (hexit.symm.trans h) Bool.false_ne_true) ?_
  · intro x hx
    rcases List.mem_cons.mp (hp.mem_iff.mp hx) with rfl | hx
    · rw [hm]
      exact h.held c rfl
    · exact h.mapped pid hpi x hx
  · intro c'
    rw [hp.countP_eq,List.countP_cons]
    simp [holds,hm]

private theorem releasedOf_append (released : List (Nat × Nat)) :
    ((released++frames.map fun frame => (c, frame)).filter (·.1 == c')).map (·.2) =
      (released.filter (·.1 == c')).map (·.2)++if c' = c then frames else [] := by
  rw [List.filter_append,List.map_append]
  congr 1
  by_cases hc : c' = c
  · subst hc
    rw [if_pos rfl,List.filter_eq_self.mpr,List.map_map]
    · exact List.map_id _
    intro x hx
    obtain ⟨frame,-,rfl⟩ := List.mem_map.mp hx
    exact beq_self_eq_true _
  · rw [if_neg hc,List.filter_eq_nil_iff.mpr]
    · rfl
    · intro x hx
      obtain ⟨frame,-,rfl⟩ := List.mem_map.mp hx
      simpa using Ne.symm hc

def freeChunk (c : Nat) (s : State) : State :=
  let chunk := s.chunks c
  let n := s.nodes chunk.parent
  { (s.setNode chunk.parent { n with chunk := none }).setChunk c
      { chunk with refCount := chunk.refCount-1, freed := true } with
    released := s.released++chunk.frames.map fun frame => (c, frame) }

theorem freeChunk_chunks (h : c' ≠ c) : (freeChunk c s).chunks c' = s.chunks c' :=
  update_of_ne h _ _

theorem freeChunk_freed : ((freeChunk c s).chunks c).freed=true := by
  simp [freeChunk,setChunk]

private theorem freeChunk_live : (freeChunk c s).Live c' ↔ c' ≠ c ∧ s.Live c' := by
  by_cases hc : c' = c
  · subst hc
    simp [Live,freeChunk_freed]
  · rw [Live,freeChunk_chunks hc]
    simp only [ne_eq,hc,not_false_eq_true,true_and]
    rfl

private theorem freeChunk_framesOf : (freeChunk c s).framesOf=s.framesOf := by
  funext c'
  by_cases hc : c' = c
  · subst hc
    simp [framesOf,freeChunk,setChunk]
  · rw [framesOf,freeChunk_chunks hc]
    rfl

private theorem freeChunk_nodes : (freeChunk c s).nodes node =
      if node=(s.chunks c).parent then { s.nodes node with chunk := none } else s.nodes node := by
  by_cases hn : node=(s.chunks c).parent
  · simp [freeChunk,setChunk,setNode,hn]
  · simp [freeChunk,setChunk,setNode,hn]

private theorem freeChunk_releasedOf :
    (freeChunk c s).releasedOf c' = s.releasedOf c' ++ if c' = c then s.framesOf c else [] :=
  releasedOf_append _

private theorem freeChunk_inv (h : Inv (some c) s) (hla : s.mappingsOf c=0) :
    Inv none (freeChunk c s) := by
  have hl := h.held c rfl
  refine ⟨⟨h.tree.root,?_,?_⟩,?_,?_,?_,?_,?_,?_,?_,h.gone⟩
  · intro node child hch
    rw [freeChunk_nodes] at hch
    split at hch <;> exact h.tree.children node child hch
  · intro node hf
    rw [freeChunk_nodes]
    split
    · rfl
    · exact h.tree.fresh node hf
  · intro node c' hc'
    rw [freeChunk_nodes] at hc'
    split at hc'
    · exact absurd hc'.symm (some_ne_none c')
    rename_i hn
    obtain ⟨hl',hpa'⟩ := h.named node c' hc'
    have hne : c' ≠ c := by
      rintro rfl
      exact hn hpa'.symm
    rw [freeChunk_live,freeChunk_chunks hne]
    exact ⟨⟨hne,hl'⟩,hpa'⟩
  · intro c' hc'
    obtain ⟨hne,hl'⟩ := freeChunk_live.mp hc'
    have hcn := h.counted c' hl'
    rw [holds,if_neg fun h => hne (some.inj h).symm] at hcn
    rw [freeChunk_chunks hne]
    exact hcn
  · intro c' hc'
    rw [freeChunk_framesOf]
    exact h.nonempty c' (freeChunk_live.mp hc').2
  · intro pid hp m hm
    refine freeChunk_live.mpr ⟨?_,h.mapped pid hp m hm⟩
    intro hmc
    have hpos := mappingsOf_pos (s := s) hp hm
    rw [hmc,hla] at hpos
    exact Nat.lt_irrefl 0 hpos
  · intro c' hc'
    exact absurd hc'.symm (some_ne_none c')
  · intro c'
    rw [freeChunk_releasedOf,h.released,freeChunk_framesOf]
    by_cases hc : c' = c
    · subst hc
      rw [if_neg fun h => Bool.false_ne_true (hl.2.symm.trans h.2),if_pos rfl,
        if_pos ⟨hl.1,freeChunk_freed⟩,List.nil_append]
    · rw [if_neg hc,List.append_nil,freeChunk_chunks hc]
      rfl
  · intro pid hp
    rw [freeChunk_framesOf]
    exact h.ordered pid hp

def setRefCount (c : Nat) (r : Int) (s : State) : State :=
  s.setChunk c { s.chunks c with refCount := r }

theorem setRefCount_chunks : (setRefCount c r s).chunks c' =
      if c' = c then { s.chunks c' with refCount := r } else s.chunks c' := by
  by_cases hc : c' = c <;> simp [setRefCount,setChunk,hc]

theorem setRefCount_freed : ((setRefCount c r s).chunks c').freed=(s.chunks c').freed := by
  rw [setRefCount_chunks]
  split <;> rfl

private theorem setRefCount_live : (setRefCount c r s).Live c' ↔ s.Live c' := by
  rw [Live,setRefCount_freed]
  rfl

theorem setRefCount_framesOf (r : Int) : (setRefCount c r s).framesOf=s.framesOf := by
  funext c'
  rw [framesOf,setRefCount_chunks]
  split <;> rfl

theorem setRefCount_inv (h : Inv held s) {r : Int} (hpos : 1 ≤ r)
    (hcnt : r=s.mappingsOf c + holds held' c) (ho : ∀ c', c' ≠ c → holds held' c' = holds held c')
    (hh : ∀ c', held' = some c' → s.Live c') : Inv held' (setRefCount c r s) := by
  refine ⟨⟨h.tree.root,h.tree.children,h.tree.fresh⟩,?_,?_,?_,?_,?_,?_,?_,h.gone⟩
  · intro node c' hc'
    obtain ⟨hl',hpa⟩ := h.named node c' hc'
    refine ⟨setRefCount_live.mpr hl',?_⟩
    rw [setRefCount_chunks]
    split <;> exact hpa
  · intro c' hc'
    obtain ⟨hpos',hcn⟩ := h.counted c' (setRefCount_live.mp hc')
    rw [setRefCount_chunks]
    by_cases hc : c' = c
    · subst hc
      rw [if_pos rfl]
      exact ⟨hpos,hcnt⟩
    · rw [if_neg hc,ho c' hc]
      exact ⟨hpos',hcn⟩
  · intro c' hc'
    rw [setRefCount_framesOf]
    exact h.nonempty c' (setRefCount_live.mp hc')
  · intro pid hp m hm
    exact setRefCount_live.mpr (h.mapped pid hp m hm)
  · intro c' hc'
    exact setRefCount_live.mpr (hh c' hc')
  · intro c'
    rw [setRefCount_framesOf,setRefCount_freed]
    exact h.released c'
  · intro pid hp
    rw [setRefCount_framesOf]
    exact h.ordered pid hp

theorem holds_none : holds none c=0 := if_neg (some_ne_none c).symm

theorem holds_of_ne (h : c' ≠ c) : holds (some c) c' = 0 :=
  if_neg fun heq => h (some.inj heq).symm

theorem releaseChunk_inv (h : Inv (some c) s) :
    ∃ s', releaseChunk c s = .ok s' ∧ Inv none s' ∧ s'.procs=s.procs ∧
      s'.procCount=s.procCount := by
  have hli := h.held c rfl
  obtain ⟨hpos,hcn⟩ := h.counted c hli
  rw [holds,if_pos rfl] at hcn
  have hf : ¬(s.chunks c).freed=true := by
    rw [hli.2]
    exact Bool.false_ne_true
  simp only [releaseChunk,if_neg hf]
  by_cases hl : (s.chunks c).refCount - 1<1
  · rw [if_pos hl]
    exact ⟨freeChunk c s,rfl,freeChunk_inv h (by omega),rfl,rfl⟩
  rw [if_neg hl]
  refine ⟨setRefCount c _ s,rfl, setRefCount_inv h (by omega) ?_ ?_ ?_,rfl,rfl⟩
  · simp only [holds,reduceCtorEq,if_false]
    omega
  · intro c' hc'
    rw [holds_of_ne hc']
    rfl
  · intro c' hc'
    exact absurd hc'.symm (some_ne_none c')

theorem mappingsOf_eq_zero
    (h : ∀ pid < s.procCount, ∀ m∈(s.procs pid).mappings, m.chunk≠c) : s.mappingsOf c=0 := by
  apply sum_eq_zero
  intro pid hp
  rw [List.countP_eq_zero]
  intro m hm
  simpa using h pid (mem_range.mp hp) m hm

def attachChunk (node : Nat) (chunk : Chunk) (s : State) : State :=
  let c := s.chunkCount
  let s := { s.setChunk c chunk with chunkCount := c+1 }
  s.setNode node { s.nodes node with chunk := some c }

theorem attachChunk_chunks (c : Nat) :
    (attachChunk node chunk s).chunks c=if c=s.chunkCount then chunk else s.chunks c := by
  by_cases hc : c=s.chunkCount <;> simp [attachChunk,setChunk,setNode,hc]

private theorem attachChunk_nodes : (attachChunk node chunk s).nodes n =
      if n=node then { s.nodes n with chunk := some s.chunkCount } else s.nodes n := by
  by_cases hn : n=node <;> simp [attachChunk,setChunk,setNode,hn]

private theorem attachChunk_live (hf : chunk.freed=false) (c : Nat) :
    (attachChunk node chunk s).Live c ↔ c=s.chunkCount ∨ s.Live c := by
  have hcn : (attachChunk node chunk s).chunkCount=s.chunkCount+1 := rfl
  rw [Live,attachChunk_chunks,hcn]
  by_cases hc : c=s.chunkCount
  · simp [hc,hf]
  simp only [hc,false_or]
  refine and_congr_left fun _ => ?_
  omega

theorem attachChunk_inv (chunk : Chunk) (h : Inv none s) (hno : node < s.nodeCount)
    (hpa : chunk.parent=node) (hcnt : chunk.refCount=1) (hf : chunk.freed=false)
    (hfr : chunk.frames≠[]) : Inv (some s.chunkCount) (attachChunk node chunk s) := by
  have hold : ∀ c, s.Live c → c≠s.chunkCount := fun c hc => hc.1.ne
  have hch : ∀ c, c≠s.chunkCount → (attachChunk node chunk s).chunks c=s.chunks c := by
    intro c hc
    rw [attachChunk_chunks,if_neg hc]
  have hnew : (attachChunk node chunk s).chunks s.chunkCount=chunk := by
    rw [attachChunk_chunks,if_pos rfl]
  have hl : ∀ c, (attachChunk node chunk s).Live c ↔ c=s.chunkCount ∨ s.Live c :=
    attachChunk_live hf
  refine ⟨⟨h.tree.root,?_,?_⟩,?_,?_,?_,?_,?_,?_,?_,h.gone⟩
  · intro n child hchi
    rw [attachChunk_nodes] at hchi
    split at hchi <;> exact h.tree.children n child hchi
  · intro n hn
    have hne : n≠node := by
      have hn : s.nodeCount≤n := hn
      omega
    rw [attachChunk_nodes,if_neg hne]
    exact h.tree.fresh n hn
  · intro n c hc
    rw [attachChunk_nodes] at hc
    split at hc
    · rename_i hn
      obtain rfl := some.inj hc
      rw [hl,hnew,hpa]
      exact ⟨.inl rfl,hn.symm⟩
    · obtain ⟨hc,hpa⟩ := h.named n c hc
      rw [hl,hch c (hold c hc)]
      exact ⟨.inr hc,hpa⟩
  · intro c hc
    rcases (hl c).mp hc with rfl | hc
    · have hz := mappingsOf_eq_zero fun pid hp m hm => hold _ (h.mapped pid hp m hm)
      rw [hnew,hcnt,holds,if_pos rfl]
      refine ⟨le_rfl,?_⟩
      show (1 : Int)=(s.mappingsOf s.chunkCount : Int)+(1 : Nat)
      rw [hz]
      rfl
    · have hcn := h.counted c hc
      rw [hch c (hold c hc),holds_of_ne (hold c hc)]
      exact hcn
  · intro c hc
    rw [framesOf]
    rcases (hl c).mp hc with rfl | hc
    · rw [hnew]
      exact List.length_pos_iff.mpr hfr
    · rw [hch c (hold c hc)]
      exact h.nonempty c hc
  · intro pid hp m hm
    exact (hl _).mpr (.inr (h.mapped pid hp m hm))
  · intro c hc
    exact (hl c).mpr (.inl (some.inj hc).symm)
  · intro c
    refine (h.released c).trans ?_
    rw [framesOf,framesOf]
    by_cases hc : c=s.chunkCount
    · subst hc
      rw [hnew,if_neg fun h => Nat.lt_irrefl _ h.1,
        if_neg fun h => Bool.false_ne_true (hf.symm.trans h.2)]
    · have hlt : c<(attachChunk node chunk s).chunkCount ↔ c < s.chunkCount := by
        show c < s.chunkCount+1 ↔ _
        omega
      simp [hch c hc,hlt]
  · intro pid hp
    refine (h.ordered pid hp).congr fun m hm => ?_
    rw [framesOf,hch _ (hold _ (h.mapped pid hp m hm))]
    rfl

theorem mapIn_inv (h : Inv (some c) s) (hpi : pid < s.procCount)
    (hexit : (s.procs pid).exited=false)
    (hf : (s.framesOf c).length≤2^20 ∨ Grows (s.framesOf c).length (s.procs pid)) :
    Inv none (s.setProc pid (mapIn c (s.framesOf c) (s.procs pid)).2) := by
  obtain ⟨⟨vaddrs,hp⟩,ho⟩ := mapIn_ordered (h.ordered pid hpi) (h.nonempty c (h.held c rfl)) hf
  exact addMapping_inv h hpi rfl hp ho hexit
end References
end RazionOS.Kernel.Shm
