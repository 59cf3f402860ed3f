import RazionOS.Kernel.Misc.MallocPages

/-! # New runs -/

namespace RazionOS.Kernel.Malloc
open Framework Function List Heap Nat

structure FreshRegion (regions : List (Nat × Nat)) (base bytes : Nat) : Prop where
  aligned : base%pageSize=0
  start : kernelHeapStart≤base
  stop : base+bytes≤2^64
  apart : ∀ r∈regions, base+bytes ≤ r.1 ∨ r.1+r.2≤base

section Grow
variable {st st' : Heap} {R : Run} (hruns : Runs st runs)
  (hfresh : FreshRegion st.regions R.base R.kind.length)
include hruns hfresh

theorem Runs.apart_of_fresh : ∀ R' ∈ runs, R.Apart R' := by
  intro R' hR'
  have hmem : (R'.base, R'.kind.length)∈st.regions := by
    rw [hruns.regions]
    exact mem_map_of_mem hR'
  exact hfresh.apart _ hmem

theorem Runs.outside_of_fresh (ha : InPart runs p a) : a<R.base ∨ R.base+R.kind.length≤a := by
  obtain ⟨R',hR',o,ho,rfl,-⟩ := ha
  have hap := hruns.apart_of_fresh hfresh R' hR'
  unfold Run.Apart at hap
  omega

variable (hvalid : R.kind.Valid)
include hvalid

theorem Runs.base_ne_of_fresh : ∀ R' ∈ runs, R'.base≠R.base := by
  intro R' hR' heq
  have hlen : 0<R.kind.length := zero_lt_of_lt (Kind.header_le_length hvalid)
  have hlen' : 0<R'.kind.length := zero_lt_of_lt (Kind.header_le_length (hruns.valid R' hR'))
  have ha := hruns.apart_of_fresh hfresh R' hR'
  unfold Run.Apart at ha
  omega

variable (hmem : ∀ p a, InPart runs p a → st'.mem a = st.mem a)
include hmem

theorem Runs.grow (hr : st'.regions=(R.base, R.kind.length)::st.regions)
    (hs : st'.mem (sizeAt R.base)=R.kind.size)
    (hm : st'.mem (magicAt R.base)=binMagic) : Runs st' (R::runs) := by
  refine ⟨?_,?_,?_,?_,?_,?_,?_⟩
  · rw [hr,hruns.regions]
    rfl
  · exact pairwise_cons.2 ⟨hruns.apart_of_fresh hfresh,hruns.apart⟩
  · exact forall_mem_cons.2 ⟨hfresh.aligned,hruns.aligned⟩
  · exact forall_mem_cons.2 ⟨hfresh.start,hruns.start⟩
  · exact forall_mem_cons.2 ⟨hvalid,hruns.valid⟩
  · refine forall_mem_cons.2 ⟨hs,?_⟩
    intro R' hR'
    rw [hmem .run _ (hruns.inPart_run hR').1,hruns.size R' hR']
  · refine forall_mem_cons.2 ⟨hm,?_⟩
    intro R' hR'
    rw [hmem .run _ (hruns.inPart_run hR').2,hruns.magic R' hR']

theorem Stacks.grow {free : Nat → List Nat} (hs : Stacks st runs free)
    (hn : ∀ b, R.kind = .small b → Linked (st'.cells R.base) F ∧ ∀ c∈F, IsCell R.base b c) :
    Stacks st' (R::runs) (update free R.base F) := by
  have hold : Stacks st' runs free := by
    apply hs.congr
    intro a ha
    exact hmem .stack a (ha.inPart hruns hs)
  have hne := hruns.base_ne_of_fresh hfresh hvalid
  constructor
  · intro x b hx
    rcases mem_cons.1 hx with hx | hx
    · subst hx
      rw [update_self]
      exact (hn b rfl).1
    · rw [update_of_ne (hne _ hx)]
      exact hold.linked x b hx
  · intro x b hx
    rcases mem_cons.1 hx with hx | hx
    · subst hx
      rw [update_self]
      exact (hn b rfl).2
    · rw [update_of_ne (hne _ hx)]
      exact hold.cell x b hx

omit hfresh hvalid in
theorem RunStacks.grow (hrs : RunStacks st runs levels)
    (hn : ∀ n, R.kind = .big n → R.base∉levels 0 ∧ st'.mem (headAt R.base)=0) :
    RunStacks st' (R::runs) levels := by
  have hold : RunStacks st' runs levels := by
    apply hrs.congr
    intro a ha
    exact hmem .runStack a (ha.inPart hruns)
  constructor
  · intro x n hx hf
    rcases mem_cons.1 hx with hx | hx
    · subst hx
      exact absurd hf (hn n rfl).1
    · exact hold.freed x n hx hf
  · intro x n hx hf
    rcases mem_cons.1 hx with hx | hx
    · subst hx
      exact (hn n rfl).2
    · exact hold.taken x n hx hf

omit hfresh hvalid in
theorem FreeRuns.grow (hfr : FreeRuns st runs levels) (hl : st'.level=st.level)
    (hh : st'.bigForward=st.bigForward) : FreeRuns st' (R::runs) levels := by
  have hold : FreeRuns st' runs levels := by
    apply hfr.congr hruns hl hh
    rintro a (ha | ha)
    · exact hmem .forward a ha
    · exact hmem .run a ha
  refine ⟨hold.linked,hold.sorted,?_,hold.top,hold.empty⟩
  intro x hx
  obtain ⟨n,hn⟩ := hold.big x hx
  exact ⟨n,mem_cons_of_mem R hn⟩
end Grow

def cellsOf (base bin : Nat) : List Nat :=
  (range' 0 ((pageSize-binHeader) / cellSize bin)).map fun k =>
    base + binHeader+k * cellSize bin

private theorem isCell_of_mem_cellsOf (hc : c∈cellsOf base bin) : IsCell base bin c := by
  obtain ⟨k,hk,rfl⟩ := mem_map.1 hc
  have hlt : k<(pageSize-binHeader) / cellSize bin := by simpa using hk
  refine ⟨k,rfl,?_⟩
  calc (k+1) * cellSize bin≤(pageSize-binHeader) / cellSize bin * cellSize bin :=
        Nat.mul_le_mul_right _ hlt
    _≤pageSize-binHeader := div_mul_le_self _ _

theorem mem_cellsOf_of_isCell (hc : IsCell base bin c) : c∈cellsOf base bin := by
  obtain ⟨k,rfl,hk⟩ := hc
  have hce : 0<cellSize bin := Nat.two_pow_pos _
  have hlt : k<(pageSize-binHeader) / cellSize bin := (Nat.le_div_iff_mul_le hce).2 hk
  exact mem_map.2 ⟨k,by simpa using hlt,rfl⟩

theorem cell_offset : 8*(k <<< bin)=k * cellSize bin := by
  have h8 : 2^smallestBinLog=8 := rfl
  rw [shiftLeft_eq,cellSize,Nat.pow_add,h8,Nat.mul_left_comm,Nat.mul_comm 8]

section LinkCells
variable (bin first : Nat) (st : Heap)

private theorem linkCells_statics :
    linkCells bin first n st = { st with mem := (linkCells bin first n st).mem } := by
  induction n with
  | zero => rfl
  | succ n ih =>
    rw [linkCells,ih]
    rfl

private theorem linkCells_other (ha : ∀ k<n, a≠first+k * cellSize bin) :
    (linkCells bin first n st).mem a=st.mem a := by
  induction n with
  | zero => rfl
  | succ n ih =>
    have hl := ha n (lt_succ_self n)
    rw [linkCells,write_mem,cell_offset,if_neg hl]
    exact ih fun k hk => ha k (lt_succ_of_lt hk)

private theorem linkCells_cell (hk : k<n) :
    (linkCells bin first n st).mem (first+k * cellSize bin)=first+(k+1) * cellSize bin := by
  have hpos : 0<cellSize bin := Nat.two_pow_pos _
  induction n with
  | zero => omega
  | succ n ih =>
    rw [linkCells,write_mem,cell_offset,cell_offset]
    by_cases hkn : k=n
    · rw [if_pos (by rw [hkn]),hkn]
    have hne : k * cellSize bin≠n * cellSize bin :=
      fun heq => hkn (eq_of_mul_eq_mul_right hpos heq)
    rw [if_neg (by omega)]
    exact ih (by omega)
end LinkCells

structure NewPage (base bin : Nat) (st st' : Heap) : Prop where
  statics : st' = { st with
    mem := st'.mem
    binHead := update st.binHead bin base
    regions := (base, pageSize)::st.regions }
  outside : ∀ a, a<base ∨ base+pageSize≤a → st'.mem a=st.mem a
  next : st'.mem (nextAt base)=st.binHead bin
  size : st'.mem (sizeAt base)=bin
  magic : st'.mem (magicAt base)=binMagic
  cells : Linked (st'.cells base) (cellsOf base bin)

private theorem cellSize_le (hb : bin<bigBin) : cellSize bin≤pageSize-binHeader := by
  have hle : cellSize bin≤2^11 := by
    apply Nat.pow_le_pow_right (by decide)
    unfold bigBin at hb
    unfold smallestBinLog
    omega
  exact Nat.le_trans hle (by decide)

theorem exists_last_cell (hb : bin<bigBin) : ∃ m, (pageSize-binHeader) / cellSize bin=m+1 ∧
      ((pageSize-binHeader) >>> (smallestBinLog+bin)) - 1=m ∧
      ∀ k ≤ m, k * cellSize bin + cellSize bin≤4064 := by
  have hc : 0<cellSize bin := Nat.two_pow_pos _
  have hpos := Nat.div_pos (cellSize_le hb) hc
  refine ⟨_,(Nat.sub_add_cancel hpos).symm,?_,?_⟩
  · rw [shiftRight_eq_div_pow,Nat.add_comm]
    rfl
  intro k hk
  calc k * cellSize bin + cellSize bin=(k+1) * cellSize bin := (succ_mul _ _).symm
    _≤(pageSize-binHeader) / cellSize bin * cellSize bin := Nat.mul_le_mul_right _ (by omega)
    _≤4064 := div_mul_le_self _ _

private theorem fillPage_mem (header : Nat)
    (hm : ((pageSize-binHeader) >>> (smallestBinLog+bin))-1=m) :
    (∀ a, (∀ k ≤ m, a≠header+binHeader+k * cellSize bin) → (fillPage bin header st).mem a =
        if a=sizeAt header then bin
        else if a=nextAt header then st.binHead bin
        else if a=headAt header then header+binHeader
        else st.mem a) ∧
    (∀ k < m, (fillPage bin header st).mem (header+binHeader+k * cellSize bin) =
      header + binHeader+(k+1) * cellSize bin) ∧
    (fillPage bin header st).mem (header+binHeader+m * cellSize bin)=0 := by
  have hc : 0<cellSize bin := Nat.two_pow_pos _
  generalize hst1 :
    klmallocListInsert bin header (st.write (headAt header) (header+binHeader))=st1
  have hmem1 : ∀ a, st1.mem a =
      if a=nextAt header then st.binHead bin
      else if a=headAt header then header+binHeader else st.mem a := by
    rw [← hst1]
    simp [klmallocListInsert]
  have hfi : st1.mem (headAt header)=header+binHeader := by
    rw [hmem1,if_neg (by unfold headAt nextAt; omega),if_pos rfl]
  have hf : fillPage bin header st=((linkCells bin (header+binHeader) m st1).write
        (header+binHeader+m * cellSize bin) 0).write (sizeAt header) bin := by
    rw [← cell_offset,← hfi,← hm,← hst1]
    rfl
  rw [hf]
  have hs : ∀ k, header+binHeader+k * cellSize bin≠sizeAt header := by
    unfold sizeAt binHeader
    omega
  refine ⟨?_,?_,?_⟩
  · intro a ha
    rw [write_mem,write_mem,if_neg (ha m (Nat.le_refl m)),
      linkCells_other _ _ _ fun k hk => ha k (Nat.le_of_lt hk),hmem1]
  · intro k hk
    have hne : k * cellSize bin≠m * cellSize bin :=
      fun heq => Nat.ne_of_lt hk (eq_of_mul_eq_mul_right hc heq)
    rw [write_mem,if_neg (hs k),write_mem,if_neg (by omega),linkCells_cell _ _ _ hk]
  · rw [write_mem,if_neg (hs m),write_mem,if_pos rfl]

private theorem fillPage_statics (bin header : Nat) : fillPage bin header st = { st with
      mem := (fillPage bin header st).mem
      binHead := update st.binHead bin header } := by
  unfold fillPage
  dsimp only
  rw [linkCells_statics]
  rfl

private theorem newBinPage_spec (hb : bin<bigBin) (hal : c.base%pageSize=0) (hpos : c.base≠0) :
    ∃ st', newBinPage c bin st = .ok (c.base, st') ∧ NewPage c.base bin st st' := by
  obtain ⟨m,hm,hav,hr⟩ := exists_last_cell hb
  generalize hst1 : (sbrk c pageSize st).2.write (magicAt c.base) binMagic=st1
  have hst : st1 = { st with mem := st1.mem, regions := (c.base, pageSize)::st.regions } := by
    rw [← hst1]
    rfl
  have hmem1 : ∀ a, st1.mem a=if a=magicAt c.base then binMagic else st.mem a := by
    intro a
    rw [← hst1,write_mem]
    rfl
  obtain ⟨hot,hli,hl⟩ := fillPage_mem c.base hav
  have hhd : ∀ o<32, ∀ k ≤ m, c.base+o≠c.base+binHeader+k * cellSize bin := by
    unfold binHeader
    omega
  refine ⟨fillPage bin c.base st1,?_,?_⟩
  · unfold newBinPage
    dsimp only [sbrk]
    rw [assert_ok hal,← hst1]
    rfl
  constructor
  · rw [fillPage_statics,hst]
  · intro a ha
    unfold pageSize at ha
    rw [hot,if_neg,if_neg,if_neg,hmem1,if_neg]
    · unfold magicAt
      omega
    · unfold headAt
      omega
    · unfold nextAt
      omega
    · unfold sizeAt
      omega
    intro k hk
    have hf := hr k hk
    have hc : 0<cellSize bin := Nat.two_pow_pos _
    unfold binHeader
    omega
  · rw [hot (nextAt c.base) (hhd 0 (by decide)),hst]
    simp [nextAt,sizeAt]
  · rw [hot (sizeAt c.base) (hhd 16 (by decide)),if_pos rfl]
  · rw [hot (magicAt c.base) (hhd 24 (by decide)),hmem1]
    simp [magicAt,nextAt,sizeAt,headAt]
  · have hh : (fillPage bin c.base st1).mem (headAt c.base)=c.base+binHeader := by
      rw [hot (headAt c.base) (hhd 8 (by decide))]
      simp [nextAt,sizeAt,headAt]
    unfold cellsOf
    rw [hm]
    apply LinkedFrom.of_range
    · change toPtr ((fillPage bin c.base st1).mem (headAt c.base))=_
      rw [hh,toPtr_of_ne (by omega),Nat.zero_mul,Nat.add_zero]
    · intro k hk
      change toPtr ((fillPage bin c.base st1).mem _)=_
      rw [hli k (by omega),toPtr_of_ne (by omega)]
    · change toPtr ((fillPage bin c.base st1).mem _)=_
      rw [Nat.zero_add,hl,toPtr_zero]

private theorem NewPage.bins (hnew : NewPage base bin st st') (h : HeapInv st sh) (hbi : bin<bigBin)
    (hpos : base≠0) (hmem : ∀ p a, InPart sh.runs p a → st'.mem a=st.mem a)
    (hne : ∀ R∈sh.runs, R.base≠base) :
    Bins st' (⟨base,.small bin⟩::sh.runs) (update sh.free base (cellsOf base bin))
      (update sh.pages bin (base::sh.pages bin)) := by
  have hp : ∀ b' y, y∈update sh.pages bin (base::sh.pages bin) b' ↔
      y=base ∧ b' = bin ∨ y∈sh.pages b' := by
    intro b' y
    by_cases hbb : b' = bin
    · subst hbb
      simp
    · simp [hbb]
  have hold : ∀ b' < bigBin, ∀ y∈sh.pages b', y≠base :=
    fun b' hb' y hy => hne _ ((h.bins.page b' hb' y).1 hy).1
  constructor
  · intro b' hb'
    have hno : ∀ b' < bigBin, base∉sh.pages b' := fun b' hb' hx => hold b' hb' base hx rfl
    apply (h.bins.linked_insert hpos hno b' hb').congr
    · rw [hnew.statics]
      rfl
    intro y hy
    simp only [pageList,klmallocListInsert,write_mem]
    rcases (hp b' y).1 hy with ⟨rfl,-⟩ | hy
    · rw [if_pos rfl,hnew.next]
    have hr := ((h.bins.page b' hb' y).1 hy).1
    have hn : nextAt y≠nextAt base := hold b' hb' y hy
    rw [if_neg hn,hmem .bin _ (h.runs.inPart_next hr)]
  · intro b' hb' y
    obtain ⟨m,hm,-⟩ := exists_last_cell hbi
    have hc : cellsOf base bin≠[] := by
      rw [cellsOf,hm]
      exact cons_ne_nil _ _
    rw [hp,mem_cons,h.bins.page b' hb' y]
    by_cases hyb : y=base
    · have hno : ∀ k, ⟨y,k⟩∉sh.runs := fun k hk => hne _ hk hyb
      simp [hyb ▸ hno,hyb,hc]
    · simp [hyb]

theorem HeapInv.newBinPage (h : HeapInv st sh) (hbi : bin<bigBin)
    (hfresh : FreshRegion st.regions c.base pageSize) :
    ∃ st', newBinPage c bin st = .ok (c.base, st') ∧ HeapInv st' { sh with
        runs := ⟨c.base,.small bin⟩::sh.runs
        free := update sh.free c.base (cellsOf c.base bin)
        pages := update sh.pages bin (c.base::sh.pages bin) } := by
  have hpos : c.base≠0 := by
    have := hfresh.start
    unfold kernelHeapStart at this
    omega
  obtain ⟨st',heq,hnew⟩ := newBinPage_spec hbi hfresh.aligned hpos
  refine ⟨st',heq,?_⟩
  have hvalid : (Kind.small bin).Valid := hbi
  have hfresh : FreshRegion st.regions (⟨c.base,.small bin⟩ : Run).base
    (Kind.small bin).length := hfresh
  have hmem : ∀ p a, InPart sh.runs p a → st'.mem a=st.mem a :=
    fun p a ha => hnew.outside a (h.runs.outside_of_fresh hfresh ha)
  have hne := h.runs.base_ne_of_fresh hfresh hvalid
  refine ⟨?_,?_,hnew.bins h hbi hpos hmem hne,?_,?_,?_⟩
  · apply h.runs.grow hfresh hvalid hmem
    · rw [hnew.statics]
      rfl
    · exact hnew.size
    · exact hnew.magic
  · apply h.cells.grow h.runs hfresh hvalid hmem
    intro b hb
    cases hb
    exact ⟨hnew.cells,fun d hd => isCell_of_mem_cellsOf hd⟩
  · apply h.freeRuns.grow h.runs hmem <;> rw [hnew.statics]
  · apply h.runStacks.grow h.runs hmem
    intro n hn
    cases hn
  · rw [hnew.statics]
    exact h.newest.imp_right fun ⟨n,hn⟩ => ⟨n,mem_cons_of_mem _ hn⟩

private theorem linkRun_mem (header : Nat) : (linkRun header st).mem a =
      if a=headAt header then 0
      else if a=nextAt header then 0
      else if st.newestBig≠0 ∧ a=nextAt st.newestBig then header
      else if a=prevAt header then st.newestBig
      else st.mem a := by
  unfold linkRun
  by_cases hn : st.newestBig=0
  · simp [hn]
  · simp [hn]

private theorem linkRun_statics (header : Nat) :
    linkRun header st = { st with mem := (linkRun header st).mem, newestBig := header } := by
  unfold linkRun
  dsimp only
  split <;> rfl

/-- No part has the first word of a run: nothing that is kept depends on `next`. -/
theorem Runs.next_not_inPart (hruns : Runs st runs) (hx : ⟨x,.big n⟩∈runs) :
    ¬ InPart runs p (nextAt x) := by
  rintro ⟨R,hR,o,ho,heq,hp⟩
  have hlen : 0<(Kind.big n).length := zero_lt_of_lt (Kind.header_le_length (hruns.valid _ hx))
  obtain ⟨rfl,rfl⟩ := hruns.offset_inj hx hR hlen ho heq
  cases hp

private theorem bigPages_size (size : Nat) :
    (bigPages size * pageSize-bigHeader+bigHeader) % pageSize=0 := by
  have hle : bigHeader≤bigPages size * pageSize := by
    unfold bigPages pageSize bigHeader
    omega
  rw [Nat.sub_add_cancel hle,mul_mod_left]

private theorem HeapInv.newest_next_ne (h : HeapInv st sh)
    (hfresh : FreshRegion st.regions base (Kind.big n).length)
    (hlen : bigHeader<(Kind.big n).length) (ho : o≤bigHeader) :
    ¬ (st.newestBig≠0 ∧ base+o=nextAt st.newestBig) := by
  rintro ⟨hne,heq⟩
  obtain ⟨m,hm⟩ := h.newest.resolve_left hne
  have hfresh : FreshRegion st.regions (⟨base,.big n⟩ : Run).base (Kind.big n).length := hfresh
  have ha := h.runs.apart_of_fresh hfresh _ hm
  have hlen' := Kind.header_le_length (h.runs.valid _ hm)
  unfold Run.Apart at ha
  unfold nextAt at heq
  dsimp only at ha hlen'
  omega

private theorem HeapInv.newest_next_not_inPart (h : HeapInv st sh) (ha : InPart sh.runs p a) :
    ¬ (st.newestBig≠0 ∧ a=nextAt st.newestBig) := by
  rintro ⟨hne,rfl⟩
  obtain ⟨n,hn⟩ := h.newest.resolve_left hne
  exact h.runs.next_not_inPart hn ha

theorem HeapInv.newBigRun {size : Nat} (h : HeapInv st sh)
    (hfresh : FreshRegion st.regions c.base (pageSize * bigPages size)) :
    ∃ st', newBigRun c size st = .ok (c.base+bigHeader, st') ∧
      HeapInv st' { sh with runs := ⟨c.base,.big (bigPages size)⟩::sh.runs } := by
  have hm : pageSize * bigPages size%2^64=pageSize * bigPages size := by
    have hl := hfresh.start
    have hh := hfresh.stop
    unfold kernelHeapStart at hl
    exact Nat.mod_eq_of_lt (by omega)
  generalize hst1 : (((sbrk c (pageSize * bigPages size) st).2.write _ binMagic).write
    _ (bigPages size * pageSize-bigHeader))=st1
  have hst : st1 = { st with
      mem := st1.mem, regions := (c.base, pageSize * bigPages size)::st.regions } := by
    rw [← hst1]
    rfl
  have hmem1 : ∀ a, st1.mem a =
      if a=sizeAt c.base then bigPages size * pageSize-bigHeader
      else if a=magicAt c.base then binMagic else st.mem a := by
    intro a
    rw [← hst1,write_mem,write_mem]
    rfl
  have hso : st1.bigSizeOk c.base := by
    unfold bigSizeOk
    rw [hmem1,if_pos rfl]
    exact bigPages_size size
  refine ⟨linkRun c.base st1,?_,?_⟩
  · unfold Malloc.newBigRun
    rw [hm]
    dsimp only [sbrk] at hst1 ⊢
    rw [assert_ok hfresh.aligned,hst1]
    rw [assert_ok hso]
    rfl
  have hp : 0<bigPages size := succ_pos _
  have hvalid : (Kind.big (bigPages size)).Valid := hp
  have hfresh : FreshRegion st.regions (⟨c.base,.big (bigPages size)⟩ : Run).base
    (Kind.big _).length := hfresh
  have hlen := Kind.header_le_length hvalid
  have hnb : st1.newestBig=st.newestBig := by rw [hst]
  have hn : ∀ o≤bigHeader, ¬ (st1.newestBig≠0 ∧ c.base+o=nextAt st1.newestBig) := by
    intro o ho
    rw [hnb]
    exact h.newest_next_ne hfresh hlen ho
  have hmem : ∀ p a, InPart sh.runs p a → (linkRun c.base st1).mem a=st.mem a := by
    intro p a ha
    have hou := h.runs.outside_of_fresh hfresh ha
    unfold bigHeader at hlen
    dsimp only at hou
    have hnex := h.newest_next_not_inPart ha
    rw [← hnb] at hnex
    rw [linkRun_mem,if_neg (by unfold headAt; omega),if_neg (by unfold nextAt; omega),if_neg hnex,
      if_neg (by unfold prevAt; omega),hmem1,if_neg (by unfold sizeAt; omega),
      if_neg (by unfold magicAt; omega)]
  refine ⟨?_,?_,?_,?_,?_,?_⟩
  · apply h.runs.grow hfresh hvalid hmem
    · rw [linkRun_statics,hst]
      rfl
    · change (linkRun c.base st1).mem (sizeAt c.base)=_
      rw [linkRun_mem,if_neg (by unfold sizeAt headAt; omega),
        if_neg (by unfold sizeAt nextAt; omega),if_neg (by exact hn 16 (by decide)),
        if_neg (by unfold sizeAt prevAt; omega),hmem1,if_pos rfl]
      rfl
    · change (linkRun c.base st1).mem (magicAt c.base)=_
      rw [linkRun_mem,if_neg (by unfold magicAt headAt; omega),
        if_neg (by unfold magicAt nextAt; omega),if_neg (by exact hn 24 (by decide)),
        if_neg (by unfold magicAt prevAt; omega),hmem1,if_neg (by unfold magicAt sizeAt; omega),
        if_pos rfl]
  · have hs := h.cells.grow (F := sh.free c.base) h.runs hfresh hvalid hmem fun b hb => nomatch hb
    rwa [update_eq_self] at hs
  · have hbi := h.bins.congr h.runs (by rw [linkRun_statics,hst]) (hmem .bin)
    refine ⟨hbi.linked,fun b hb x => ?_⟩
    simp [hbi.page b hb x]
  · apply h.freeRuns.grow h.runs hmem <;> rw [linkRun_statics,hst]
  · apply h.runStacks.grow h.runs hmem
    intro n _
    constructor
    · intro hf
      obtain ⟨m,hm⟩ := h.freeRuns.big _ hf
      exact h.runs.base_ne_of_fresh hfresh hvalid _ hm rfl
    · rw [linkRun_mem,if_pos rfl]
  · exact .inr ⟨_,mem_cons_self⟩
end RazionOS.Kernel.Malloc
