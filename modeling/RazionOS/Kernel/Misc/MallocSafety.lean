import RazionOS.Kernel.Misc.MallocBlocks

/-! # Runs of the allocator -/

namespace RazionOS.Kernel.Malloc
open Framework List Except Prod

def home (ptr : Nat) : Nat := if ptr%pageSize=0 then ptr-(pageSize-bigHeader) else ptr

structure Houses (s : Slot) (blk : Block) : Prop where
  pointed : s.PointedBy blk.ptr
  room : blk.ptr+blk.size ≤ s.ptr+s.capacity

/-- The slots that are taken are those of the blocks that are held. -/
structure Inv (st : State) (sh : Shape) : Prop where
  heap : HeapInv st.heap sh
  housed : ∀ blk∈st.live, ∃ s, Taken sh s ∧ Houses s blk
  homes : (st.live.map fun blk => home blk.ptr).Nodup
  covered : ∀ s, Taken sh s → ∃ blk∈st.live, home blk.ptr=s.ptr

theorem Taken.home_eq (ht : Taken sh s) (h : HeapInv heap sh) (hp : s.PointedBy ptr) :
    home ptr=s.ptr := by
  cases hp with
  | first => exact if_neg (ht.ptr_not_aligned h).2.2
  | page x n =>
    have ha := h.runs.aligned _ ht.slot.run_mem
    unfold home
    rw [if_pos (by rw [Nat.add_mod_right]; exact ha)]
    dsimp only [bigHeader,pageSize]
    omega

theorem Taken.ptr_inj (h : HeapInv heap sh) (ht : Taken sh s) (ht' : Taken sh s')
    (heq : s.ptr=s'.ptr) : s=s' := by
  by_contra hne
  have ha := ht.slot.apart h.runs ht'.slot hne
  have hpos := ht.slot.capacity_pos h.runs
  have hpos' := ht'.slot.capacity_pos h.runs
  omega

theorem Inv.alloc (h : Inv st sh) (hhe : HeapInv heap' sh') (hta : Takes sh sh' s)
    (hh : Houses s ⟨ptr,size⟩) : Inv ⟨heap',⟨ptr,size⟩::st.live⟩ sh' := by
  have hs := (hta.iff s).2 (.inl rfl)
  have hho := hs.home_eq hhe hh.pointed
  refine ⟨hhe,?_,?_,?_⟩
  · intro blk hb
    rcases mem_cons.1 hb with rfl | hb
    · exact ⟨s,hs,hh⟩
    · obtain ⟨t,ht,hh⟩ := h.housed blk hb
      exact ⟨t,(hta.iff t).2 (.inr ht),hh⟩
  · refine nodup_cons.2 ⟨?_,h.homes⟩
    intro hmem
    obtain ⟨blk,hb,heq⟩ := mem_map.1 hmem
    obtain ⟨t,ht,hh⟩ := h.housed blk hb
    have ht' := (hta.iff t).2 (.inr ht)
    have hp := (ht'.home_eq hhe hh.pointed).symm.trans (heq.trans hho)
    exact hta.free (ht'.ptr_inj hhe hs hp ▸ ht)
  · intro t ht
    rcases (hta.iff t).1 ht with rfl | ht
    · exact ⟨_,mem_cons_self,hho⟩
    · obtain ⟨blk,hb,heq⟩ := h.covered t ht
      exact ⟨blk,mem_cons_of_mem _ hb,heq⟩

section
variable (h : Inv st sh) (hb : blk∈st.live)
include h hb

theorem Inv.eq_of_home (hb' : blk' ∈ st.live) (heq : home blk.ptr=home blk'.ptr) : blk=blk' :=
  inj_on_of_nodup_map h.homes hb hb' heq

theorem Inv.release (hs : Taken sh s)
    (hho : Houses s blk) (hhe : HeapInv heap' sh') (hta : Takes sh' sh s) :
    Inv ⟨heap',st.live.filter (·.ptr≠blk.ptr)⟩ sh' := by
  have hh := hs.home_eq h.heap hho.pointed
  refine ⟨hhe,?_,?_,?_⟩
  · intro blk' hb'
    obtain ⟨hmem,hne⟩ := mem_filter.1 hb'
    obtain ⟨t,ht,hho'⟩ := h.housed blk' hmem
    refine ⟨t,((hta.iff t).1 ht).resolve_left ?_,hho'⟩
    rintro rfl
    have hh' := ht.home_eq h.heap hho'.pointed
    have heq := h.eq_of_home hmem hb (hh'.trans hh.symm)
    simp [heq] at hne
  · exact h.homes.sublist (filter_sublist.map _)
  · intro t ht
    obtain ⟨blk',hmem,heq⟩ := h.covered t ((hta.iff t).2 (.inr ht))
    refine ⟨blk',mem_filter.2 ⟨hmem,?_⟩,heq⟩
    simp only [decide_not,Bool.not_eq_true',decide_eq_false_iff_not]
    intro hp
    have ht' := (hta.iff t).2 (.inr ht)
    have heq' : t.ptr=s.ptr := by rw [← heq,hp,hh]
    exact hta.free (ht'.ptr_inj h.heap hs heq' ▸ ht)

private theorem Inv.resize (hs : Taken sh s) (hh : Houses s ⟨blk.ptr,size⟩) :
    Inv ⟨st.heap,⟨blk.ptr,size⟩::st.live.filter (·.ptr≠blk.ptr)⟩ sh := by
  refine ⟨h.heap,?_,?_,?_⟩
  · intro blk' hb'
    rcases mem_cons.1 hb' with rfl | hb'
    · exact ⟨s,hs,hh⟩
    · exact h.housed blk' (mem_filter.1 hb').1
  · refine nodup_cons.2 ⟨?_,h.homes.sublist (filter_sublist.map _)⟩
    intro hmem
    obtain ⟨blk',hb',heq⟩ := mem_map.1 hmem
    obtain ⟨hmem',hne⟩ := mem_filter.1 hb'
    have heq' := h.eq_of_home hmem' hb heq
    simp [heq'] at hne
  · intro t ht
    obtain ⟨blk',hmem,heq⟩ := h.covered t ht
    by_cases hp : blk'.ptr=blk.ptr
    · exact ⟨_,mem_cons_self,hp ▸ heq⟩
    · exact ⟨blk',mem_cons_of_mem _ (mem_filter.2 ⟨hmem,by simpa using hp⟩),heq⟩

end

/-- Sizes that are not zero and do not overflow, pointers to blocks that are held, and stores of
words into them. -/
def Valid (call : Call) (st : State) : Prop :=
  match call with
  | .malloc size => 0 < size ∧ size+bigHeader<2^64
  | .calloc nmemb size => 0<nmemb*size ∧ nmemb*size+bigHeader<2^64
  | .valloc size => 0 < size ∧ size+pageSize<2^64
  | .realloc ptr size => 0 < size ∧ size+bigHeader<2^64 ∧ ∃ blk∈st.live, blk.ptr=ptr
  | .free ptr => ∃ blk∈st.live, blk.ptr=ptr
  | .store address _ =>
    address % 8=0 ∧ ∃ blk∈st.live, blk.ptr≤address ∧ address<blk.ptr+blk.size

def asksFor (call : Call) (st : State) : Option Nat :=
  match call with
  | .malloc size => some size
  | .calloc nmemb size => some (nmemb*size)
  | .valloc size => some (size+pageSize-bigHeader)
  | .realloc ptr size => if oldSize ptr st.heap ≥ size then none else some size
  | .free _ => none
  | .store _ _ => none

/-- When the heap grows, `sbrk` returns pages that are not in use. -/
def SbrkFresh (c : Chance) (call : Call) (st : State) : Prop :=
  ∀ size, asksFor call st=some size → grows size st.heap →
    FreshRegion st.heap.regions c.base (growth size)

/-- No block at the start of a page, that is none of `valloc`, is given to `realloc`. -/
def Plain : Call → Prop
  | .realloc ptr _ => ptr%pageSize≠0
  | _ => True

def Returns (call : Call) (r : Nat) (sh sh' : Shape) : Prop :=
  match call with
  | .valloc _ => r%pageSize=0
  | .free ptr => ∃ s, Taken sh s ∧ s.PointedBy ptr ∧ s.Free sh'
  | _ => True

theorem houses_of_allocates (ha : Allocates size sh r s sh') : Houses s ⟨r.1,size⟩ := by
  have hr := ha.room
  constructor
  · rw [ha.ptr]
    exact .first s
  · dsimp only
    rw [ha.ptr]
    omega

theorem Taken.setBytes (ht : Taken sh s) (h : HeapInv heap sh) (words : Nat → Nat)
    (hb : bytes ≤ s.capacity) : HeapInv (heap.setBytes s.ptr bytes words) sh := by
  apply ht.frame h
  intro a ha
  rw [if_neg (by omega)]

section
variable (h : Inv st sh)
include h

private theorem malloc_step (hpos : 0 < size) (hs : size+bigHeader<2^64)
    (hf : grows size st.heap → FreshRegion st.heap.regions c.base (growth size)) :
    ∃ r st' sh', step c (.malloc size) st = .ok (r, st') ∧ Inv st' sh' := by
  obtain ⟨⟨p,heap'⟩,s,sh',hm,ha⟩ := klmalloc_spec h.heap hpos hs hf
  refine ⟨p,_,sh',?_,h.alloc ha.inv ha.takes (houses_of_allocates ha)⟩
  simp only [step,hm]
  rfl

private theorem calloc_step (hpos : 0<nmemb*size) (hsi : nmemb*size+bigHeader<2^64)
    (hf : grows (nmemb*size) st.heap → FreshRegion st.heap.regions c.base (growth (nmemb*size))) :
    ∃ r st' sh', step c (.calloc nmemb size) st = .ok (r, st') ∧ Inv st' sh' := by
  obtain ⟨⟨p,heap'⟩,s,sh',hm,ha⟩ := klmalloc_spec h.heap hpos hsi hf
  have hmo : nmemb*size%2^64=nmemb*size := Nat.mod_eq_of_lt (by omega)
  have hs := (ha.takes.iff s).2 (.inl rfl)
  have hp := ha.ptr
  have hse := hs.setBytes ha.inv (fun _ => 0) ha.room
  rw [← hp] at hse
  have hne := hp ▸ hs.ptr_pos ha.inv (.first s)
  have hc : klcalloc c nmemb size st.heap = .ok (p, memset p (nmemb*size) heap') := by
    unfold klcalloc
    rw [hmo,hm]
    exact if_pos hne
  refine ⟨p,_,sh',?_,h.alloc hse ha.takes (houses_of_allocates ha)⟩
  simp only [step,hc]
  rfl

theorem valloc_step (hsi : size+pageSize<2^64) (hf : grows (size+pageSize-bigHeader) st.heap →
      FreshRegion st.heap.regions c.base (growth (size+pageSize-bigHeader))) :
    ∃ r st' sh', step c (.valloc size) st = .ok (r, st') ∧ Inv st' sh' ∧ r%pageSize=0 := by
  have ht : (size+pageSize-bigHeader)%2 ^ 64=size+pageSize-bigHeader := Nat.mod_eq_of_lt (by omega)
  have hb : 2048 < size+pageSize-bigHeader := by
    unfold pageSize bigHeader
    omega
  obtain ⟨⟨p,heap'⟩,s,sh',hm,hal⟩ := klmalloc_spec h.heap (by omega)
      (by unfold pageSize bigHeader at *; omega) hf
  have hs := (hal.takes.iff s).2 (.inl rfl)
  obtain ⟨n,hn⟩ := hal.big (bigBin_le_of_lt (by omega) hb)
  -- the slot is a run, and the result the start of its second page
  obtain ⟨⟨x,k⟩,q⟩ := s
  subst hn
  obtain ⟨hx,rfl,-⟩ := taken_run.1 hs
  have hp : p=x+bigHeader := hal.ptr
  have ha := hal.inv.runs.aligned _ hx
  have ho : p+(pageSize-bigHeader)=x+pageSize := by
    rw [hp]
    unfold pageSize bigHeader
    omega
  have hre : (x+pageSize)%pageSize=0 := by rwa [Nat.add_mod_right]
  have hv : klvalloc c size st.heap = .ok (x+pageSize, heap') := by
    unfold klvalloc
    simp only [ht,hm,ok_bind,ho,assert_ok hre]
    rfl
  have hh : Houses ⟨⟨x,.big n⟩,x+bigHeader⟩ ⟨x+pageSize,size⟩ := by
    refine ⟨.page x n,?_⟩
    have hr := hal.room
    dsimp only
    omega
  refine ⟨x+pageSize,_,sh',?_,h.alloc hal.inv hal.takes hh,hre⟩
  simp only [step,hv]
  rfl

private theorem free_step (hbl : blk∈st.live) :
    ∃ st' sh', step c (.free blk.ptr) st = .ok (0, st') ∧ Inv st' sh' ∧
      ∃ s, Taken sh s ∧ s.PointedBy blk.ptr ∧ s.Free sh' := by
  obtain ⟨s,hs,hh⟩ := h.housed blk hbl
  obtain ⟨heap',sh',hf,hinv,ht,hsf⟩ := klfree_spec (c := c) h.heap hs hh.pointed
  have hst : ¬ blk.ptr<kernelHeapStart := by
    have hb := h.heap.runs.start _ hs.slot.run_mem
    have hbo := hs.slot.bounds h.heap.runs
    have hle := hh.pointed.le
    omega
  refine ⟨_,sh',?_,h.release hbl hs hh hinv ht,s,hs,hh.pointed,hsf⟩
  simp only [step,free,if_neg hst,hf]
  rfl

private theorem store_step (hb : blk∈st.live) (hl : blk.ptr≤address)
    (hhi : address<blk.ptr+blk.size) : Inv { st with heap := st.heap.write address word } sh := by
  obtain ⟨s,hs,hh⟩ := h.housed blk hb
  refine ⟨?_,h.housed,h.homes,h.covered⟩
  apply hs.frame h.heap
  intro a ha
  have hle := hh.pointed.le
  have hr := hh.room
  have hne : a≠address := by omega
  exact Function.update_of_ne hne word st.heap.mem

end

/-- The pointer is to the first byte of its slot, and the header of its page has the size. -/
theorem Houses.oldSize_eq (hho : Houses s blk) (hs : Taken sh s) (h : HeapInv heap sh)
    (hne : blk.ptr%pageSize≠0) :
    blk.ptr=s.ptr ∧ blk.ptr/pageSize*pageSize=s.run.base ∧
      oldSize blk.ptr heap=s.capacity := by
  have hhd := hs.header_eq h hho.pointed
  rw [if_neg hne] at hhd
  refine ⟨?_,hhd,?_⟩
  · have hh := hs.home_eq h hho.pointed
    unfold home at hh
    rwa [if_neg hne] at hh
  unfold oldSize
  rw [hhd]
  cases hs.slot with
  | cell hx hc =>
    obtain ⟨hsi,-,hb⟩ := h.runs.small_size hx
    dsimp only [Slot.capacity]
    rw [hsi,if_pos hb,Nat.add_comm,cellSize]
  | run hx =>
    have hsi := h.runs.bigSize_eq hx
    dsimp only [Slot.capacity]
    rw [if_neg (by unfold bigBin bigHeader pageSize at *; omega),Nat.mul_comm]
    omega

private theorem realloc_step (h : Inv st sh) (hb : blk∈st.live) (hne : blk.ptr%pageSize≠0)
    (hpos : 0 < size) (hsi : size+bigHeader<2^64)
    (hfre : ¬ oldSize blk.ptr st.heap ≥ size → grows size st.heap →
      FreshRegion st.heap.regions c.base (growth size)) :
    ∃ r st' sh', step c (.realloc blk.ptr size) st = .ok (r, st') ∧ Inv st' sh' := by
  obtain ⟨s,hs,hh⟩ := h.housed blk hb
  obtain ⟨hpt,hhd,hold⟩ := hh.oldSize_eq hs h.heap hne
  have hpt0 := hs.ptr_pos h.heap hh.pointed
  have hm := h.heap.runs.magic _ hs.slot.run_mem
  by_cases hf : oldSize blk.ptr st.heap ≥ size
  · have hr : klrealloc c blk.ptr size st.heap = .ok (blk.ptr, st.heap) := by
      unfold klrealloc
      rw [if_neg hpt0,if_neg (by omega),hhd,assert_ok hm]
      exact if_pos hf
    have hh' : Houses s ⟨blk.ptr,size⟩ := by
      refine ⟨hh.pointed,?_⟩
      dsimp only
      omega
    refine ⟨blk.ptr,_,sh,?_,h.resize hb hs hh'⟩
    simp only [step,hr]
    rfl
  obtain ⟨⟨p,heap1⟩,s',sh1,hma,ha⟩ := klmalloc_spec h.heap hpos hsi (hfre hf)
  have hs' := (ha.takes.iff s').2 (.inl rfl)
  have hs1 := (ha.takes.iff s).2 (.inr hs)
  have hp : p=s'.ptr := ha.ptr
  have hp0 := hp ▸ hs'.ptr_pos ha.inv (.first s')
  -- the copy stays within the new slot
  have hc : HeapInv (memcpy p blk.ptr (oldSize blk.ptr st.heap) heap1) sh1 := by
    rw [hp]
    apply hs'.setBytes ha.inv
    have hro := ha.room
    omega
  have hinv1 := h.alloc hc ha.takes (houses_of_allocates ha)
  obtain ⟨heap2,sh2,hfr,hinv2,ht,-⟩ := klfree_spec (c := c) hc hs1 hh.pointed
  have hre := hinv1.release (mem_cons_of_mem _ hb) hs1 hh hinv2 ht
  have hpn : p≠blk.ptr := by
    intro heq
    have hss := hs'.ptr_inj ha.inv hs1 (by rw [← hp,heq,hpt])
    exact ha.takes.free (hss ▸ hs)
  have hfi : (⟨p,size⟩::st.live).filter (fun b => b.ptr≠blk.ptr) =
      ⟨p,size⟩::st.live.filter (fun b => b.ptr≠blk.ptr) := by
    rw [filter_cons_of_pos (by simpa using hpn)]
  rw [hfi] at hre
  have hr : klrealloc c blk.ptr size st.heap = .ok (p, heap2) := by
    unfold klrealloc
    rw [if_neg hpt0,if_neg (by omega),hhd,assert_ok hm]
    simp only [ok_bind,if_neg hf,hma,if_pos hp0,hfr]
    rfl
  refine ⟨p,_,sh2,?_,hre⟩
  simp only [step,hr]
  rfl

variable {call : Call}

theorem step_spec (h : Inv st sh) (hv : Valid call st) (hf : SbrkFresh c call st)
    (hp : Plain call) :
    ∃ r st' sh', step c call st = .ok (r, st') ∧ Inv st' sh' ∧ Returns call r sh sh' := by
  cases call with
  | malloc size =>
    obtain ⟨r,st',sh',hs,hinv⟩ := malloc_step h hv.1 hv.2 (hf size rfl)
    exact ⟨r,st',sh',hs,hinv,trivial⟩
  | calloc nmemb size =>
    obtain ⟨r,st',sh',hs,hinv⟩ := calloc_step h hv.1 hv.2 (hf _ rfl)
    exact ⟨r,st',sh',hs,hinv,trivial⟩
  | valloc size => exact valloc_step h hv.2 (hf _ rfl)
  | realloc ptr size =>
    obtain ⟨hpos,hsi,blk,hb,rfl⟩ := hv
    have hf' : ¬ oldSize blk.ptr st.heap ≥ size → grows size st.heap → FreshRegion _ c.base _ :=
      fun hold => hf size (if_neg hold)
    obtain ⟨r,st',sh',hs,hinv⟩ := realloc_step h hb hp hpos hsi hf'
    exact ⟨r,st',sh',hs,hinv,trivial⟩
  | free ptr =>
    obtain ⟨blk,hb,rfl⟩ := hv
    obtain ⟨st',sh',hs,hinv,hr⟩ := free_step h hb
    exact ⟨0,st',sh',hs,hinv,hr⟩
  | store address word =>
    obtain ⟨-,blk,hb,hl,hh⟩ := hv
    exact ⟨0,_,sh,rfl,store_step h hb hl hh,trivial⟩

def Heap.empty (mem : Nat → Nat) : Heap := ⟨mem,fun _ => 0,fun _ => 0,0,0,[]⟩

/-- The states that calls lead to, of which none gives `realloc` a block of `valloc`. -/
inductive Reached : State → Prop
  | start (mem : Nat → Nat) : Reached ⟨.empty mem,[]⟩
  | call {call : Call} (before : Reached st)
      (valid : Valid call st) (fresh : SbrkFresh c call st) (plain : Plain call)
      (step : step c call st = .ok (r, st')) : Reached st'

/-- The search finds a smallest free run that is big enough, and the deletion unlinks it. -/
def FindsBest (size : Nat) (st : Heap) (levels : Nat → List Nat) : Prop :=
  ∃ found, klmallocSkipListFindbest size st = .ok found ∧
    (found=none → ∀ y∈levels 0, bigSize st y < size) ∧
    ∀ x, found=some x → x∈levels 0 ∧ size≤bigSize st x ∧
      (∀ y∈levels 0, size≤bigSize st y → bigSize st x≤bigSize st y) ∧
      ∃ st', klmallocSkipListDelete x st = .ok st' ∧
        ∀ i ≤ skipMaxLevel, Linked (st'.forward i) ((levels i).filter (· ≠ x))

structure Sound (st : State) (sh : Shape) : Prop where
  account : HeapInv st.heap sh
  apart : st.live.Pairwise fun blk blk' =>
    blk.ptr + blk.size≤blk'.ptr ∨ blk'.ptr+blk'.size≤blk.ptr
  inside : ∀ blk∈st.live, ∃ s, Taken sh s ∧ s.PointedBy blk.ptr ∧
    s.run.base + s.run.kind.header≤blk.ptr ∧
    blk.ptr + blk.size ≤ s.run.base+s.run.kind.length
  freeCells : ∀ x b, ⟨x,.small b⟩∈sh.runs → ∀ c∈sh.free x, ∀ blk∈st.live,
    c + cellSize b≤blk.ptr ∨ blk.ptr+blk.size ≤ c
  freeRuns : ∀ x n, ⟨x,.big n⟩∈sh.runs → x∈sh.levels 0 → ∀ blk∈st.live,
    x + pageSize*n≤blk.ptr ∨ blk.ptr+blk.size≤x
  best : ∀ size, FindsBest size st.heap sh.levels

private theorem HeapInv.findsBest (h : HeapInv heap sh) (size : Nat) :
    FindsBest size heap sh.levels := by
  refine ⟨_,h.freeRuns.findbest h.runs size,?_,?_⟩
  · intro hn y hy
    by_contra hle
    have hmem := mem_notBelow.2 ⟨hy,Nat.le_of_not_lt hle⟩
    rw [head?_eq_none_iff.1 hn] at hmem
    cases hmem
  intro x hx
  obtain ⟨R,hf⟩ := head?_eq_some_iff.1 hx
  have hmem := hf ▸ mem_cons_self
  obtain ⟨hfr,hle⟩ := mem_notBelow.1 hmem
  obtain ⟨n,hr⟩ := h.freeRuns.big x hfr
  obtain ⟨st',hd,-,hfrr⟩ := h.freeRuns.delete h.runs hf (h.runStacks.freed x n hr hfr).1
  refine ⟨hfr,hle,?_,st',hd,hfrr.linked⟩
  intro y hy hs
  have hso : Ascending (bigSize heap) (x::R) := by
    rw [← hf]
    exact h.freeRuns.sorted.ascending.filter _
  have hy' := mem_notBelow.2 ⟨hy,hs⟩
  rw [hf] at hy'
  rcases mem_cons.1 hy' with rfl | hy'
  · exact Nat.le_refl _
  · exact (pairwise_cons.1 hso).1 y hy'

private theorem Houses.range (h : Houses s blk) :
    s.ptr≤blk.ptr ∧ blk.ptr+blk.size ≤ s.ptr+s.capacity :=
  ⟨h.pointed.le,h.room⟩

private theorem Inv.sound (h : Inv st sh) : Sound st sh := by
  refine ⟨h.heap,?_,?_,?_,?_,h.heap.findsBest⟩
  · have hp := pairwise_map.1 h.homes
    apply hp.imp_of_mem
    intro blk blk' hbl hbl' hne
    obtain ⟨s,hs,hh⟩ := h.housed blk hbl
    obtain ⟨s',hs',hh'⟩ := h.housed blk' hbl'
    have hss : s≠s' := by
      rintro rfl
      exact hne ((hs.home_eq h.heap hh.pointed).trans (hs'.home_eq h.heap hh'.pointed).symm)
    have ha := hs.slot.apart h.heap.runs hs'.slot hss
    have hr := hh.range
    have hr' := hh'.range
    omega
  · intro blk hbl
    obtain ⟨s,hs,hh⟩ := h.housed blk hbl
    have hb := hs.slot.bounds h.heap.runs
    have hr := hh.range
    exact ⟨s,hs,hh.pointed,by omega,by omega⟩
  · intro x b hx c hc blk hbl
    obtain ⟨s,hs,hh⟩ := h.housed blk hbl
    have hsl : IsSlot sh.runs ⟨⟨x,.small b⟩,c⟩ := .cell hx (h.heap.cells.cell x b hx c hc)
    have hss : s≠⟨⟨x,.small b⟩,c⟩ := by
      rintro rfl
      exact hs.not_free hc
    have ha := hs.slot.apart h.heap.runs hsl hss
    have hr := hh.range
    have hce : Slot.capacity ⟨⟨x,.small b⟩,c⟩=cellSize b := rfl
    dsimp only at ha
    omega
  · intro x n hx hf blk hbl
    obtain ⟨s,hs,hh⟩ := h.housed blk hbl
    have hb := hs.slot.bounds h.heap.runs
    have hr := hh.range
    rcases h.heap.runs.eq_or_apart hx hs.slot.run_mem with heq | ha
    · exfalso
      have hn := hs.not_free
      unfold Slot.Free at hn
      rw [← heq] at hn
      exact hn hf
    · unfold Run.Apart at ha
      dsimp only [Kind.length] at ha hb
      omega

private theorem inv_empty : Inv ⟨.empty mem,[]⟩ ⟨[],fun _ => [],fun _ => [],fun _ => []⟩ := by
  refine ⟨⟨⟨rfl,.nil,nofun,nofun,nofun,nofun,nofun⟩,⟨nofun,nofun⟩,⟨?_,by simp⟩,
    ⟨?_,⟨.nil,?_⟩,nofun,Nat.zero_le _,fun _ _ => rfl⟩,⟨nofun,nofun⟩,.inl rfl⟩,nofun,
    nodup_nil,?_⟩
  · exact fun _ _ => rfl
  · exact fun _ _ => rfl
  · exact fun _ => List.Sublist.refl _
  · rintro s ⟨hs,-⟩
    cases hs.run_mem

theorem Reached.exists_inv (h : Reached st) : ∃ sh, Inv st sh := by
  induction h with
  | start mem => exact ⟨_,inv_empty⟩
  | call _ hv hf hp hs ih =>
    obtain ⟨sh,hinv⟩ := ih
    obtain ⟨r,st',sh',hs',hinv',-⟩ := step_spec hinv hv hf hp
    rw [hs] at hs'
    cases hs'
    exact ⟨sh',hinv'⟩

/-- Blocks are apart and within their runs, nothing free overlaps them, and any further call returns
with all of that kept. -/
theorem allocator_sound {st : State} (h : Reached st) :
    ∃ sh, Sound st sh ∧ ∀ c call, Valid call st → SbrkFresh c call st → Plain call →
      ∃ r st' sh', step c call st = .ok (r, st') ∧ Sound st' sh' ∧ Returns call r sh sh' := by
  obtain ⟨sh,hinv⟩ := h.exists_inv
  refine ⟨sh,hinv.sound,?_⟩
  intro c call hv hf hp
  obtain ⟨r,st',sh',hs,hinv',hr⟩ := step_spec hinv hv hf hp
  exact ⟨r,st',sh',hs,hinv'.sound,hr⟩

/-- No memory is leaked: a slot that is not free holds one live block. -/
theorem slots_held (h : Reached st) : ∃ sh, HeapInv st.heap sh ∧
    ∀ s, Taken sh s → ∃! blk, blk ∈ st.live ∧ s.PointedBy blk.ptr := by
  obtain ⟨sh,hinv⟩ := h.exists_inv
  refine ⟨sh,hinv.heap,fun s ht => ?_⟩
  obtain ⟨blk,hb,he⟩ := hinv.covered s ht
  obtain ⟨s',ht',hh⟩ := hinv.housed blk hb
  have heq := ht'.home_eq hinv.heap hh.pointed
  obtain rfl := ht'.ptr_inj hinv.heap ht (heq.symm.trans he)
  refine ⟨blk,⟨hb,hh.pointed⟩,fun blk' ⟨hb',hp⟩ => ?_⟩
  exact inj_on_of_nodup_map hinv.homes hb' hb ((ht.home_eq hinv.heap hp).trans heq.symm)

def firstPages : Chance := ⟨kernelHeapStart,fun _ => false⟩

private theorem firstPages_fresh (hs : kernelHeapStart + growth size≤2^64) :
    FreshRegion (Heap.empty mem).regions firstPages.base (growth size) :=
  ⟨by decide,Nat.le_refl _,hs,nofun⟩

theorem exists_valloc_block : ∃ st, Reached st ∧ st.live=[⟨kernelHeapStart+pageSize,1⟩] ∧
    step firstPages (.realloc (kernelHeapStart+pageSize) 1) st = .error .assertion ∧
    oldSize (kernelHeapStart+pageSize) st.heap=8 := by
  have hru : Yields (fun _ => False) (fun r => r.2.live=[⟨kernelHeapStart+pageSize,1⟩] ∧
      oldSize (kernelHeapStart+pageSize) r.2.heap=8 ∧
      Yields (· = .assertion) (fun _ => False)
        (step firstPages (.realloc (kernelHeapStart+pageSize) 1) r.2))
      (step firstPages (.valloc 1) ⟨.empty fun _ => 0,[]⟩) := by
    decide +kernel
  have hg : kernelHeapStart + growth (1+pageSize-bigHeader)≤2^64 := by
    decide +kernel
  obtain ⟨⟨r,st⟩,hs,hl,hold,hr⟩ := hru.exists_ok
  have hv : Valid (.valloc 1) ⟨.empty fun _ => 0,[]⟩ := ⟨by decide,by decide⟩
  have hf : SbrkFresh firstPages (.valloc 1) ⟨.empty fun _ => 0,[]⟩ := by
    intro size hasks _
    cases hasks
    exact firstPages_fresh hg
  refine ⟨st,.call (.start _) hv hf trivial hs,hl,?_,hold⟩
  cases hre : step firstPages (.realloc (kernelHeapStart+pageSize) 1) st with
  | ok r => exact (hr.of_ok hre).elim
  | error e => rw [hr.of_error hre]

theorem slots_held_valloc : ∃ st sh, Reached st ∧ st.live = [⟨kernelHeapStart+pageSize,1⟩] ∧
    HeapInv st.heap sh ∧ ∀ s, Taken sh s → ∃! blk, blk ∈ st.live ∧ s.PointedBy blk.ptr := by
  obtain ⟨st,hr,hl,-⟩ := exists_valloc_block
  obtain ⟨sh,hs⟩ := slots_held hr
  exact ⟨st,sh,hr,hl,hs⟩

theorem allocator_sound_valloc : ∃ st sh, st.live = [⟨kernelHeapStart+pageSize,1⟩] ∧ Sound st sh ∧
    ∃ r st' sh', step firstPages (.free (kernelHeapStart+pageSize)) st = .ok (r, st') ∧
      Sound st' sh' := by
  obtain ⟨st,hr,hl,-⟩ := exists_valloc_block
  obtain ⟨sh,hs,hn⟩ := allocator_sound hr
  obtain ⟨r,st',sh',hst,hs',-⟩ := hn firstPages (.free (kernelHeapStart+pageSize))
    ⟨_,hl ▸ mem_cons_self,rfl⟩ (fun _ hasks => nomatch hasks) trivial
  exact ⟨st,sh,hl,hs,r,st',sh',hst,hs'⟩

/-- `klrealloc` takes what the caller has at the start of the page for a header. -/
theorem realloc_of_valloc_block : ∃ c st ptr, Reached st ∧ Valid (.realloc ptr 1) st ∧
    SbrkFresh c (.realloc ptr 1) st ∧ step c (.realloc ptr 1) st = .error .assertion := by
  obtain ⟨st,hr,hl,hre,hold⟩ := exists_valloc_block
  refine ⟨firstPages,st,kernelHeapStart+pageSize,hr,?_,?_,hre⟩
  · exact ⟨by decide,by decide,_,hl ▸ mem_cons_self,rfl⟩
  intro size hasks
  have hn : asksFor (.realloc (kernelHeapStart+pageSize) 1) st=none := by
    simp only [asksFor,hold]
    rfl
  rw [hn] at hasks
  cases hasks

def Call.bytes : Call → Nat
  | .malloc size | .valloc size | .realloc _ size => size
  | .calloc nmemb size => nmemb*size
  | _ => 0

def Call.Allocates (st : State) : Call → Prop
  | .malloc _ | .calloc _ _ | .valloc _ => True
  | .realloc ptr _ => ∃ blk∈st.live, blk.ptr=ptr
  | _ => False

/-- The bytes with the header, and for `valloc` also those up to the page behind it. -/
def Call.request (call : Call) : Nat :=
  match call with
  | .valloc size => size+pageSize
  | _ => call.bytes+bigHeader

/-- The request can be rounded up to pages. -/
def Call.Fits (call : Call) : Prop := call.request+pageSize<2^64

def Call.Vanishes : Call → Prop
  | .calloc nmemb size => nmemb*size%2^64=0
  | _ => False

/-- A block that is returned is in a slot with room for the bytes, and a request of 2⁶⁴ or more
gives `NULL`. -/
def Honest (c : Chance) (call : Call) (st : State) : Prop :=
  (∀ r st', step c call st = .ok (r, st') → r≠0 →
    ∃ sh s, Inv st' sh ∧ Taken sh s ∧ Houses s ⟨r,call.bytes⟩) ∧
  (2^64≤call.request → ∃ st', step c call st = .ok (0, st'))

private theorem step_mem_live (hc : call.Allocates st) (hs : step c call st = .ok (r, st')) :
    ⟨r,call.bytes⟩∈st'.live := by
  cases call with
  | free ptr => exact hc.elim
  | store address word => exact hc.elim
  | _ =>
    obtain ⟨_,-,hr⟩ := bind_eq_ok.1 hs
    cases hr
    exact mem_cons_self

private theorem honest_of_inv (hc : call.Allocates st) (hf : call.request<2^64)
    (h : ∃ r st' sh', step c call st = .ok (r, st') ∧ Inv st' sh') : Honest c call st := by
  obtain ⟨r,st',sh,hst,hinv⟩ := h
  refine ⟨fun r' st'' hst' _ => ?_,fun hn => absurd hn hf.not_ge⟩
  obtain ⟨rfl,rfl⟩ := mk.inj (ok.inj (hst.symm.trans hst'))
  obtain ⟨s,hs,hh⟩ := hinv.housed _ (step_mem_live hc hst)
  exact ⟨sh,s,hinv,hs,hh⟩

theorem honest_of_null (h : step c call st = .ok (0, st')) : Honest c call st := by
  refine ⟨fun r st'' hs hne => ?_,fun _ => ⟨st',h⟩⟩
  obtain ⟨rfl,-⟩ := mk.inj (ok.inj (h.symm.trans hs))
  exact absurd rfl hne

theorem honest_of_vanishes (h : call.Vanishes) : Honest c call st := by
  cases call with
  | calloc nmemb size =>
    have hz : nmemb*size%2^64=0 := h
    have hs : step c (.calloc nmemb size) st = .ok (0, ⟨st.heap,⟨0,nmemb*size⟩::st.live⟩) := by
      simp only [step,klcalloc,hz]
      rfl
    exact honest_of_null hs
  | _ => exact h.elim

theorem klmallocStackPop_ne_zero (h : klmallocStackPop header heap = .ok p) : p.1≠0 := by
  obtain ⟨_,-,h⟩ := bind_eq_ok.1 h
  obtain ⟨_,hi,h⟩ := bind_eq_ok.1 h
  obtain ⟨_,hh,-⟩ := bind_eq_ok.1 hi
  have hne : heap.mem (headAt header)≠0 := by
    by_contra hz
    rw [assert,if_neg (not_not.2 hz)] at hh
    cases hh
  split at h
  · obtain ⟨_,-,h⟩ := bind_eq_ok.1 h
    cases h
    exact hne
  · cases h
    exact hne

private theorem takeCell_ne_zero (h : takeCell bucket header heap = .ok p) : p.1≠0 := by
  obtain ⟨⟨item,heap'⟩,hp,h⟩ := bind_eq_ok.1 h
  have hne := klmallocStackPop_ne_zero hp
  dsimp only at h
  split at h <;> cases h <;> exact hne

theorem klmalloc_ne_zero (hs : size≠0) (h : klmalloc c size heap = .ok p) : p.1≠0 := by
  rw [klmalloc,if_neg hs] at h
  dsimp only at h
  split at h
  · split at h
    · obtain ⟨_,-,h⟩ := bind_eq_ok.1 h
      exact takeCell_ne_zero h
    · obtain ⟨_,-,h⟩ := bind_eq_ok.1 h
      exact takeCell_ne_zero h
  obtain ⟨found,-,h⟩ := bind_eq_ok.1 h
  cases found with
  | some header =>
    obtain ⟨_,-,h⟩ := bind_eq_ok.1 h
    obtain ⟨_,-,h⟩ := bind_eq_ok.1 h
    exact klmallocStackPop_ne_zero h
  | none =>
    obtain ⟨_,-,h⟩ := bind_eq_ok.1 h
    obtain ⟨_,-,h⟩ := bind_eq_ok.1 h
    cases h
    exact Nat.succ_ne_zero _

private theorem klrealloc_ne_zero (hp : ptr≠0) (h : klrealloc c ptr size heap = .ok p) : p.1≠0 := by
  rw [klrealloc,if_neg hp] at h
  split at h
  · cases h
  next hs =>
  obtain ⟨_,-,h⟩ := bind_eq_ok.1 h
  dsimp only at h
  split at h
  · cases h
    exact hp
  obtain ⟨⟨newptr,heap'⟩,hm,h⟩ := bind_eq_ok.1 h
  have hne := klmalloc_ne_zero hs hm
  rw [if_pos hne] at h
  obtain ⟨_,-,h⟩ := bind_eq_ok.1 h
  cases h
  exact hne

private theorem step_ne_null (h : Inv st sh) (hc : call.Allocates st) (hf : 2^64≤call.request)
    (hn : ¬call.Vanishes) : step c call st ≠ .ok (0, st') := by
  intro hst
  cases call with
  | free ptr => exact hc
  | store address word => exact hc
  | malloc size =>
    obtain ⟨p,hm,hr⟩ := bind_eq_ok.1 hst
    have hsi : size≠0 := by
      rintro rfl
      exact absurd hf (by decide)
    have hne := klmalloc_ne_zero hsi hm
    exact hne (mk.inj (ok.inj hr)).1
  | calloc nmemb size =>
    obtain ⟨p,hca,hr⟩ := bind_eq_ok.1 hst
    obtain ⟨⟨ptr,heap⟩,hm,hz⟩ := bind_eq_ok.1 hca
    have hne := klmalloc_ne_zero hn hm
    dsimp only at hz
    rw [if_pos hne] at hz
    cases hz
    exact hne (mk.inj (ok.inj hr)).1
  | valloc size =>
    obtain ⟨p,hv,hr⟩ := bind_eq_ok.1 hst
    obtain ⟨_,-,ho⟩ := bind_eq_ok.1 hv
    obtain ⟨_,-,ho⟩ := bind_eq_ok.1 ho
    cases ho
    exact Nat.succ_ne_zero _ (mk.inj (ok.inj hr)).1
  | realloc ptr size =>
    obtain ⟨blk,hb,rfl⟩ := hc
    obtain ⟨s,hs,hh⟩ := h.housed blk hb
    obtain ⟨p,hre,hr⟩ := bind_eq_ok.1 hst
    have hne := klrealloc_ne_zero (hs.ptr_pos h.heap hh.pointed) hre
    exact hne (mk.inj (ok.inj hr)).1

private theorem honest_of_fits (h : Inv st sh) (hc : call.Allocates st) (hf : call.Fits)
    (hfr : SbrkFresh c call st) (hp : Plain call) : Honest c call st := by
  have hf : call.request<2^64 := Nat.lt_of_le_of_lt (Nat.le_add_right _ _) hf
  have of_valid (hv : Valid call st) : Honest c call st := by
    obtain ⟨r,st',sh',hst,hinv,-⟩ := step_spec h hv hfr hp
    exact honest_of_inv hc hf ⟨r,st',sh',hst,hinv⟩
  cases call with
  | free ptr => exact hc.elim
  | store address word => exact hc.elim
  | malloc size =>
    rcases Nat.eq_zero_or_pos size with rfl | hpos
    · have hst : step c (.malloc 0) st = .ok (0, ⟨st.heap,⟨0,0⟩::st.live⟩) := rfl
      exact honest_of_null hst
    · exact of_valid ⟨hpos,hf⟩
  | calloc nmemb size =>
    rcases Nat.eq_zero_or_pos (nmemb*size) with hz | hpos
    · exact honest_of_vanishes (by rw [Call.Vanishes,hz,Nat.zero_mod])
    · exact of_valid ⟨hpos,hf⟩
  | valloc size =>
    obtain ⟨r,st',sh',hst,hinv,-⟩ := valloc_step h hf (hfr _ rfl)
    exact honest_of_inv hc hf ⟨r,st',sh',hst,hinv⟩
  | realloc ptr size =>
    rcases Nat.eq_zero_or_pos size with rfl | hpos
    · obtain ⟨blk,hb,rfl⟩ := hc
      obtain ⟨s,hs,hh⟩ := h.housed blk hb
      refine ⟨fun r st' hst => ?_,fun hn => absurd hn hf.not_ge⟩
      obtain ⟨_,hr,-⟩ := bind_eq_ok.1 hst
      rw [klrealloc,if_neg (hs.ptr_pos h.heap hh.pointed)] at hr
      cases hr
    · exact of_valid ⟨hpos,hf,hc⟩

private theorem exists_of_yields {x : Except Fault (Nat × State)}
    (h : Yields (fun _ => False) (fun r => r.1=a ∧ r.2.heap.regions=pages) x) :
    ∃ st, x = .ok (a, st) ∧ st.heap.regions=pages := by
  obtain ⟨⟨_,st⟩,hx,rfl,hp⟩ := h.exists_ok
  exact ⟨st,hx,hp⟩

end RazionOS.Kernel.Malloc
