import RazionOS.Kernel.Misc.MallocGrowth
import RazionOS.Kernel.Misc.MallocSkipList

/-! # Blocks -/

namespace RazionOS.Kernel.Malloc
open Framework Function List

theorem HeapInv.set_levels (h : HeapInv st sh) (hbh : st'.binHead=st.binHead)
    (hn : st'.newestBig=st.newestBig) (hr : st'.regions=st.regions)
    (hmem : ∀ a, ¬ InPart sh.runs .forward a → ¬ InPart sh.runs .runStack a → st'.mem a=st.mem a)
    (hfr : FreeRuns st' sh.runs levels) (hru : RunStacks st' sh.runs levels) :
    HeapInv st' { sh with levels } := by
  have hk : ∀ p a, p ≠ .forward → p ≠ .runStack → InPart sh.runs p a → st'.mem a=st.mem a := by
    intro p a hf hrs ha
    apply hmem a
    · exact fun ha' => hf (h.runs.part_unique ha ha')
    · exact fun ha' => hrs (h.runs.part_unique ha ha')
  refine ⟨h.runs.congr hr fun a => hk .run a (by decide) (by decide),?_,
    h.bins.congr h.runs hbh fun a => hk .bin a (by decide) (by decide),hfr,
    hru,hn ▸ h.newest⟩
  apply h.cells.congr
  intro a ha
  exact hk .stack a (by decide) (by decide) (ha.inPart h.runs h.cells)

section BigRuns
variable (h : HeapInv st sh)
include h

theorem RunStacks.set (hx : ⟨x,.big n⟩∈sh.runs)
    (hmem : ∀ a, a≠headAt x → a≠x+bigHeader → InPart sh.runs .runStack a → st'.mem a=st.mem a)
    (hl : ∀ y, y≠x → (y∈levels 0 ↔ y∈sh.levels 0))
    (hfr : x∈levels 0 → st'.mem (headAt x)=x+bigHeader ∧ st'.mem (x+bigHeader)=0)
    (ht : x∉levels 0 → st'.mem (headAt x)=0) : RunStacks st' sh.runs levels := by
  have hot : ∀ y m, ⟨y,.big m⟩∈sh.runs → y≠x → st'.mem (headAt y)=st.mem (headAt y) ∧
        st'.mem (y+bigHeader)=st.mem (y+bigHeader) := by
    intro y m hy hyx
    have hne : ∀ o o', o≤bigHeader → o' ≤ bigHeader → y+o≠x+o' := by
      intro o o' ho ho' heq
      have hlen := Kind.header_le_length (h.runs.valid _ hx)
      have hlen' := Kind.header_le_length (h.runs.valid _ hy)
      have hi := h.runs.offset_inj hy hx (Nat.lt_of_le_of_lt ho hlen')
        (Nat.lt_of_le_of_lt ho' hlen) heq
      exact hyx (congrArg Run.base hi.1)
    constructor
    · exact hmem _ (hne 8 8 (by decide) (by decide)) (hne 8 96 (by decide) (by decide))
        (h.runs.inPart_bigHead hy)
    · exact hmem _ (hne 96 8 (by decide) (by decide)) (hne 96 96 (by decide) (by decide))
        (h.runs.inPart_bigCell hy)
  constructor
  · intro y m hy hf
    by_cases hyx : y=x
    · subst hyx
      exact hfr hf
    · obtain ⟨hh,hc⟩ := hot y m hy hyx
      rw [hh,hc]
      exact h.runStacks.freed y m hy ((hl y hyx).1 hf)
  · intro y m hy hf
    by_cases hyx : y=x
    · subst hyx
      exact ht hf
    · rw [(hot y m hy hyx).1]
      exact h.runStacks.taken y m hy fun hmem => hf ((hl y hyx).2 hmem)

private theorem HeapInv.takeRun (hf : notBelow (bigSize st) size (sh.levels 0)=x::R) :
    ∃ st1 st2, klmallocSkipListDelete x st = .ok st1 ∧
      klmallocStackPop x st1 = .ok (x+bigHeader, st2) ∧
      HeapInv st2 { sh with levels := eraseFrom x sh.levels } := by
  have hfr : x∈sh.levels 0 := by
    have hx := hf ▸ mem_cons_self
    exact (mem_notBelow.1 hx).1
  obtain ⟨n,hx⟩ := h.freeRuns.big x hfr
  obtain ⟨hh,hc⟩ := h.runStacks.freed x n hx hfr
  obtain ⟨st1,hd,hr,hfrr⟩ := h.freeRuns.delete h.runs hf hh
  have hru1 := h.runs.congr hr.regions fun a => h.runs.keeps hr.touches (by decide)
  have hs : ∀ a, InPart sh.runs .runStack a → st1.mem a=st.mem a :=
    fun a => h.runs.keeps hr.touches (by decide)
  have hh1 := (hs _ (h.runs.inPart_bigHead hx)).trans hh
  have hc1 := (hs _ (h.runs.inPart_bigCell hx)).trans hc
  have hp := touches_write st1 0 (h.runs.inPart_bigHead hx)
  have hne : x∉eraseFrom x sh.levels 0 := by simp [eraseFrom]
  refine ⟨st1,st1.write (headAt x) 0,hd,?_,?_⟩
  · have hsi : ¬ st1.mem (sizeAt x)≤numBins := by
      obtain ⟨hsi,hn⟩ := hru1.bigSize_eq hx
      unfold numBins bigHeader pageSize at *
      omega
    unfold klmallocStackPop
    dsimp only
    rw [assert_ok (h.runs.base_pos hx),assertHeadInside_big hru1 hx hh1,if_neg hsi,hh1,hc1]
    rfl
  · refine h.set_levels hr.binHead hr.newestBig hr.regions ?_ ?_ ?_
    · intro a hfw hrs
      exact (hp a hrs).trans (hr.touches a hfw)
    · refine hfrr.congr hru1 rfl rfl ?_
      rintro a (ha | ha) <;> exact h.runs.keeps hp (by decide) ha
    · apply RunStacks.set h hx
      · intro a hh _ ha
        rw [Heap.write_mem,if_neg hh,hs a ha]
      · intro y hyx
        simp [eraseFrom,hyx]
      · exact fun hmem => absurd hmem hne
      · intro _
        rw [Heap.write_mem,if_pos rfl]

private theorem HeapInv.giveRun (hx : ⟨x,.big n⟩∈sh.runs) (ht : x∉sh.levels 0)
    (hto : top ≤ skipMaxLevel) : ∃ st1 st2 levels, klmallocStackPush x (x+bigHeader) st = .ok st1 ∧
      st1.mem (headAt x)≠0 ∧ klmallocSkipListInsert top x st1 = .ok st2 ∧
      HeapInv st2 { sh with levels } ∧ ∀ y, y∈levels 0 ↔ y=x ∨ y∈sh.levels 0 := by
  have he := h.runStacks.taken x n hx ht
  generalize hst1 : (st.write (x+bigHeader) 0).write (headAt x) (x+bigHeader)=st1
  have hmem1 : ∀ a, st1.mem a =
      if a=headAt x then x+bigHeader else if a=x+bigHeader then 0 else st.mem a := by
    intro a
    rw [← hst1,Heap.write_mem,Heap.write_mem]
  have hp : Touches sh.runs .runStack st st1 := by
    rw [← hst1]
    intro a ha
    rw [touches_write _ _ (h.runs.inPart_bigHead hx) a ha,
      touches_write _ _ (h.runs.inPart_bigCell hx) a ha]
  have hre : st1.regions=st.regions := by rw [← hst1]; rfl
  have hru1 := h.runs.congr hre fun a => h.runs.keeps hp (by decide)
  have hfr1 : FreeRuns st1 sh.runs sh.levels := by
    apply h.freeRuns.congr h.runs (by rw [← hst1]; rfl) (by rw [← hst1]; rfl)
    rintro a (ha | ha) <;> exact h.runs.keeps hp (by decide) ha
  have hh1 : st1.mem (headAt x)=x+bigHeader := by rw [hmem1,if_pos rfl]
  obtain ⟨st2,hi,hr,hfr⟩ := hfr1.insert hru1 hx ht hh1 hto
  have hl : ∀ y, y∈insertAt (bigSize st1) x (top+1) sh.levels 0 ↔ y=x ∨ y∈sh.levels 0 := by
    intro y
    rw [mem_insertAt,and_iff_right (Nat.succ_pos top)]
  refine ⟨st1,st2,_,?_,?_,hi,?_,hl⟩
  · obtain ⟨hsi,hn⟩ := h.runs.bigSize_eq hx
    unfold klmallocStackPush
    unfold bigHeader pageSize at *
    rw [assert_ok (by omega),assert_ok (by omega),if_pos (by unfold numBins; omega),
      assert_ok (by omega),he,← hst1]
    rfl
  · rw [hh1]
    unfold bigHeader
    omega
  apply h.set_levels (hr.binHead.trans (by rw [← hst1]; rfl))
    (hr.newestBig.trans (by rw [← hst1]; rfl)) (hr.regions.trans hre) ?_
    hfr
  · have hs : ∀ a, InPart sh.runs .runStack a → st2.mem a=st1.mem a :=
      fun a => h.runs.keeps hr.touches (by decide)
    apply RunStacks.set h hx
    · intro a hh hc ha
      rw [hs a ha,hmem1,if_neg hh,if_neg hc]
    · intro y hyx
      rw [hl]
      exact or_iff_right hyx
    · intro _
      rw [hs _ (h.runs.inPart_bigHead hx),hs _ (h.runs.inPart_bigCell hx),hh1,hmem1,
        if_neg (by unfold headAt bigHeader; omega),if_pos rfl]
      exact ⟨rfl,rfl⟩
    · exact fun hno => absurd ((hl x).2 (.inl rfl)) hno
  · intro a hf hrs
    exact (hr.touches a hf).trans (hp a hrs)
end BigRuns

private theorem eq_two_pow_of_and_eq_zero (hk : Nat.size size=k+1) (hand : size &&& (size-1)=0) :
    size=2^k := by
  have hl : 2^k ≤ size := Nat.lt_size.1 (by omega)
  have hh : size<2^k*2 := by
    rw [← Nat.pow_succ]
    exact Nat.size_le.1 (by omega)
  by_contra hne
  have ht : ∀ m, 2^k ≤ m → m<2^k*2 → m.testBit k=true := by
    intro m hl hh
    have hd : m/2^k=1 := Nat.div_eq_of_lt_le (by omega) (by omega)
    rw [Nat.testBit_eq_decide_div_mod_eq,hd]
    rfl
  have hb : (size &&& (size-1)).testBit k=true := by
    rw [Nat.testBit_and,ht size hl hh,ht (size-1) (by omega) (by omega)]
    rfl
  rw [hand,Nat.zero_testBit] at hb
  cases hb

theorem size_le_cellSize (hpos : 0 < size) (hb : klmallocBinSize size<bigBin) :
    size≤cellSize (klmallocBinSize size) := by
  obtain ⟨k,hk⟩ : ∃ k, Nat.size size=k+1 :=
    ⟨Nat.size size - 1,by have := Nat.size_pos.2 hpos; omega⟩
  have hlt := hk ▸ Nat.lt_size_self size
  -- the exponent of the power of two that the size is rounded up to
  obtain ⟨e,he,hle⟩ : ∃ e, Nat.size size + (if size &&& (size-1)≠0 then 1 else 0)=e+1 ∧
      size≤2^e := by
    by_cases hand : size &&& (size-1)=0
    · refine ⟨k,by rw [if_neg (not_not.2 hand),hk],?_⟩
      exact Nat.le_of_eq (eq_two_pow_of_and_eq_zero hk hand)
    · exact ⟨k+1,by rw [if_pos hand,hk],Nat.le_of_lt hlt⟩
  unfold klmallocBinSize klmallocAdjustBin bigBin smallestBinLog at hb
  unfold klmallocBinSize klmallocAdjustBin bigBin cellSize smallestBinLog
  simp only [he] at hb ⊢
  have hexp : e≤(if e+1≤3 then 0
      else if e+1-(3+1) > 9 then 9 else e+1-(3+1))+3 := by
    by_cases hs : e+1≤3
    · omega
    rw [if_neg hs] at hb ⊢
    by_cases hbi : e+1-(3+1) > 9
    · rw [if_pos hbi] at hb
      omega
    · rw [if_neg hbi]
      omega
  exact Nat.le_trans hle (Nat.pow_le_pow_right (by decide) hexp)

theorem bigBin_le_of_lt (hpos : 0 < size) (hbi : 2048 < size) : bigBin≤klmallocBinSize size := by
  by_contra hlt
  have hb := Nat.lt_of_not_le hlt
  have hle := size_le_cellSize hpos hb
  have hc : cellSize (klmallocBinSize size)≤2^11 := by
    apply Nat.pow_le_pow_right (by decide)
    unfold bigBin at hb
    unfold smallestBinLog
    omega
  omega

/-- A place for a block: a cell of a page, or a run after its header. -/
structure Slot where
  run : Run
  ptr : Nat
deriving DecidableEq

def Kind.header : Kind → Nat
  | .small _ => binHeader
  | .big _ => bigHeader

def Slot.capacity (s : Slot) : Nat :=
  match s.run.kind with
  | .small bin => cellSize bin
  | .big pages => pageSize*pages-bigHeader

inductive IsSlot (runs : List Run) : Slot → Prop
  | cell (run : ⟨x,.small b⟩∈runs) (cell : IsCell x b c) :
      IsSlot runs ⟨⟨x,.small b⟩,c⟩
  | run (run : ⟨x,.big n⟩∈runs) : IsSlot runs ⟨⟨x,.big n⟩,x+bigHeader⟩

def Slot.Free (sh : Shape) (s : Slot) : Prop :=
  match s.run.kind with
  | .small _ => s.ptr∈sh.free s.run.base
  | .big _ => s.run.base∈sh.levels 0

structure Taken (sh : Shape) (s : Slot) : Prop where
  slot : IsSlot sh.runs s
  not_free : ¬ s.Free sh

theorem IsSlot.run_mem (hs : IsSlot runs s) : s.run∈runs := by
  cases hs <;> assumption

section Slots
variable (hruns : Runs st runs)
include hruns

section
variable (hs : IsSlot runs s)
include hs

theorem IsSlot.bounds :
    s.run.base + s.run.kind.header ≤ s.ptr ∧ s.ptr+s.capacity ≤ s.run.base+s.run.kind.length := by
  cases hs with
  | cell hx hc => exact hc.bounds
  | run hx =>
    have hlen := Kind.header_le_length (hruns.valid _ hx)
    simp only [Kind.header,Slot.capacity,Kind.length] at *
    omega

theorem IsSlot.apart (hs' : IsSlot runs s') (hne : s≠s') :
    s.ptr + s.capacity ≤ s'.ptr ∨ s'.ptr+s'.capacity ≤ s.ptr := by
  have hb := hs.bounds hruns
  have hb' := hs'.bounds hruns
  rcases hruns.eq_or_apart hs.run_mem hs'.run_mem with heq | ha
  · cases hs with
    | cell hx hc =>
      cases hs' with
      | cell hx' hc' =>
        cases heq
        exact hc.apart hc' fun hcc => hne (hcc ▸ rfl)
      | run hx' => cases heq
    | run hx =>
      cases hs' with
      | cell hx' hc' => cases heq
      | run hx' =>
        cases heq
        exact absurd rfl hne
  · unfold Run.Apart at ha
    omega

private theorem IsSlot.not_header (hR : R∈runs) (ho : o<R.kind.header) :
    ¬ (s.ptr≤R.base+o ∧ R.base+o < s.ptr+s.capacity) := by
  rintro ⟨hlo,hh⟩
  obtain ⟨hf,hl⟩ := hs.bounds hruns
  have hlen := Kind.header_le_length (hruns.valid R hR)
  have hle : R.kind.header≤bigHeader := by
    cases R.kind <;> simp [Kind.header,binHeader,bigHeader]
  rcases hruns.eq_or_apart hR hs.run_mem with heq | ha
  · rw [heq] at ho hlo
    omega
  · unfold Run.Apart at ha
    omega

theorem IsSlot.capacity_pos : 0 < s.capacity := by
  cases hs with
  | cell hx hc => exact Nat.two_pow_pos _
  | run hx =>
    have hlen := Kind.header_le_length (hruns.valid _ hx)
    simp only [Slot.capacity,Kind.length] at *
    omega

end

end Slots

private theorem header_of_partOf (hp : partOf k o=some p) (hs : p ≠ .stack) (hrs : p ≠ .runStack) :
    o<k.header := by
  by_contra hle
  cases k with
  | small b =>
    simp only [Kind.header,binHeader] at hle
    simp only [partOf] at hp
    rw [if_neg (by omega),if_neg (by omega),if_pos (by omega)] at hp
    exact hs (Option.some.inj hp).symm
  | big n =>
    simp only [Kind.header,bigHeader] at hle
    simp only [partOf] at hp
    rw [if_neg (by omega),if_neg (by omega),if_pos (by omega)] at hp
    exact hrs (Option.some.inj hp).symm

theorem Taken.frame (ht : Taken sh s) (h : HeapInv st sh)
    (hmem : ∀ a, ¬ (s.ptr≤a ∧ a < s.ptr+s.capacity) → mem a=st.mem a) :
    HeapInv { st with mem } sh := by
  have hpa : ∀ p, p ≠ .stack → p ≠ .runStack → ∀ a, InPart sh.runs p a → mem a=st.mem a := by
    rintro p hst hrs a ⟨R,hR,o,-,rfl,hp⟩
    exact hmem _ (ht.slot.not_header h.runs hR (header_of_partOf hp hst hrs))
  -- a free slot is another one
  have hf : ∀ s', IsSlot sh.runs s' → s'.Free sh → mem s'.ptr=st.mem s'.ptr := by
    intro s' hs' hf
    apply hmem
    have hne : s≠s' := fun hss => ht.not_free (hss ▸ hf)
    have ha := ht.slot.apart h.runs hs' hne
    have hpos := hs'.capacity_pos h.runs
    omega
  apply h.frame
  · exact hpa .run (by decide) (by decide)
  · exact hpa .bin (by decide) (by decide)
  · exact hpa .forward (by decide) (by decide)
  · rintro a ⟨x,b,hx,rfl | hc⟩
    · exact hmem _ (ht.slot.not_header h.runs hx (by decide : 8<binHeader))
    · exact hf ⟨_,a⟩ (.cell hx (h.cells.cell x b hx a hc)) hc
  · rintro a ⟨x,n,hx,rfl | ⟨hl,rfl⟩⟩
    · exact hmem _ (ht.slot.not_header h.runs hx (by decide : 8<bigHeader))
    · exact hf ⟨_,_⟩ (.run hx) hl

structure Takes (sh sh' : Shape) (s : Slot) : Prop where
  free : ¬ Taken sh s
  iff : ∀ s', Taken sh' s' ↔ s' = s ∨ Taken sh s'

theorem taken_cell :
    Taken sh ⟨⟨x,.small b⟩,c⟩ ↔ ⟨x,.small b⟩∈sh.runs ∧ IsCell x b c ∧ c∉sh.free x := by
  constructor
  · rintro ⟨⟨hx,hc⟩,hf⟩
    exact ⟨hx,hc,hf⟩
  · rintro ⟨hx,hc,hf⟩
    exact ⟨.cell hx hc,hf⟩

theorem taken_run :
    Taken sh ⟨⟨x,.big n⟩,p⟩ ↔ ⟨x,.big n⟩∈sh.runs ∧ p=x+bigHeader ∧ x∉sh.levels 0 := by
  constructor
  · rintro ⟨⟨⟩,hf⟩
    rename_i hx
    exact ⟨hx,rfl,hf⟩
  · rintro ⟨hx,rfl,hf⟩
    exact ⟨.run hx,hf⟩

theorem takes_cell (pages : Nat → List Nat) (h : HeapInv st sh) (hx : ⟨x,.small b⟩∈sh.runs)
    (hf : sh.free x=c::F) :
    Takes sh { sh with free := update sh.free x F, pages } ⟨⟨x,.small b⟩,c⟩ := by
  have hnd := (h.cells.linked x b hx).nodup
  rw [hf] at hnd
  have hc := (nodup_cons.1 hnd).1
  have hce := h.cells.cell x b hx c (hf ▸ mem_cons_self)
  constructor
  · rw [taken_cell,hf]
    exact fun ht => ht.2.2 mem_cons_self
  rintro ⟨⟨y,k⟩,p⟩
  cases k with
  | small b' =>
    rw [taken_cell,taken_cell]
    by_cases hyx : y=x
    · subst hyx
      rw [hf]
      by_cases hbb : b' = b
      · subst hbb
        by_cases hpc : p=c
        · subst hpc
          simp [hx,hce,hc]
        · simp [hpc]
      · have hn : ⟨y,.small b'⟩∉sh.runs := fun hy => hbb (h.runs.bin_eq hy hx)
        simp [hn,hbb]
    · simp [hyx]
  | big n =>
    rw [taken_run,taken_run]
    simp

theorem takes_run (h : HeapInv st sh) (hx : ⟨x,.big n⟩∈sh.runs) (hf : x∈sh.levels 0)
    (hl : ∀ y, y∈levels 0 ↔ y≠x ∧ y∈sh.levels 0) :
    Takes sh { sh with levels } ⟨⟨x,.big n⟩,x+bigHeader⟩ := by
  constructor
  · rw [taken_run]
    exact fun ht => ht.2.2 hf
  rintro ⟨⟨y,k⟩,p⟩
  cases k with
  | small b =>
    rw [taken_cell,taken_cell]
    simp
  | big m =>
    rw [taken_run,taken_run]
    rw [hl]
    by_cases hyx : y=x
    · subst hyx
      by_cases hmn : m=n
      · subst hmn
        simp [hx,hf]
      have hn : ⟨y,.big m⟩∉sh.runs := by
        intro hy
        have heq := h.runs.base_inj hy hx rfl
        simp at heq
        exact hmn heq
      simp [hn,hmn]
    · simp [hyx]

private theorem taken_newPage (hne : ∀ R∈sh.runs, R.base≠x) : Taken { sh with
      runs := ⟨x,.small b⟩::sh.runs, free := update sh.free x (cellsOf x b), pages } s ↔
      Taken sh s := by
  obtain ⟨⟨y,k⟩,p⟩ := s
  cases k with
  | small b' =>
    rw [taken_cell,taken_cell]
    by_cases hyx : y=x
    · subst hyx
      have hn : ⟨y,.small b'⟩∉sh.runs := fun hy => hne _ hy rfl
      have ha : IsCell y b p → p∈cellsOf y b := mem_cellsOf_of_isCell
      simp only [mem_cons,hn,or_false,false_and,iff_false,update_self]
      rintro ⟨heq,hc,hf⟩
      cases heq
      exact hf (ha hc)
    · simp [hyx]
  | big n =>
    rw [taken_run,taken_run]
    simp

private theorem takes_newRun (h : HeapInv st sh) (hne : ∀ R∈sh.runs, R.base≠x) :
    Takes sh { sh with runs := ⟨x,.big n⟩::sh.runs } ⟨⟨x,.big n⟩,x+bigHeader⟩ := by
  have hn : ∀ k, ⟨x,k⟩∉sh.runs := fun k hx => hne _ hx rfl
  have hl : x∉sh.levels 0 := by
    intro hx
    obtain ⟨m,hm⟩ := h.freeRuns.big x hx
    exact hn _ hm
  constructor
  · rw [taken_run]
    exact fun ht => hn _ ht.1
  rintro ⟨⟨y,k⟩,p⟩
  cases k with
  | small b =>
    rw [taken_cell,taken_cell]
    simp
  | big m =>
    rw [taken_run,taken_run]
    by_cases hyx : y=x
    · subst hyx
      simp [hn,hl]
    · simp [hyx]

/-- Whether `klmalloc` asks for more pages, and for how many bytes of them. -/
def grows (size : Nat) (st : Heap) : Prop :=
  if klmallocBinSize size<bigBin then st.binHead (klmallocBinSize size)=0
  else klmallocSkipListFindbest size st = .ok none

def growth (size : Nat) : Nat :=
  if klmallocBinSize size<bigBin then pageSize else pageSize * bigPages size

structure Allocates (size : Nat) (sh : Shape) (r : Nat × Heap) (s : Slot) (sh' : Shape) : Prop where
  inv : HeapInv r.2 sh'
  ptr : r.1=s.ptr
  takes : Takes sh sh' s
  room : size ≤ s.capacity
  big : bigBin≤klmallocBinSize size → ∃ n, s.run.kind = .big n

section
variable (h : HeapInv st sh) (hpos : 0 < size)
include h hpos

private theorem klmalloc_cell (hb : klmallocBinSize size<bigBin)
    (hp : sh.pages (klmallocBinSize size)=x::rest) :
    ∃ r s sh', takeCell (klmallocBinSize size) x st = .ok r ∧ Allocates size sh r s sh' := by
  obtain ⟨c,F,st',hf,ht,hinv⟩ := h.takeCell hb hp
  have hx := ((h.bins.page _ hb x).1 (hp ▸ mem_cons_self)).1
  refine ⟨_,⟨⟨x,.small (klmallocBinSize size)⟩,c⟩,_,ht,hinv,rfl,?_,?_,?_⟩
  · exact takes_cell _ h hx hf
  · exact size_le_cellSize hpos hb
  · exact fun hbi => absurd hb (Nat.not_lt.2 hbi)

private theorem klmalloc_small (hb : klmallocBinSize size<bigBin)
    (hf : grows size st → FreshRegion st.regions c.base (growth size)) :
    ∃ r s sh', klmalloc c size st = .ok r ∧ Allocates size sh r s sh' := by
  unfold klmalloc
  rw [if_neg (by omega),if_pos hb]
  by_cases he : st.binHead (klmallocBinSize size)=0
  · have hf : FreshRegion st.regions c.base pageSize := by
      unfold grows growth at hf
      rw [if_pos hb,if_pos hb] at hf
      exact hf he
    obtain ⟨st1,hn,h1⟩ := h.newBinPage hb hf
    obtain ⟨r,s,sh',ht,ha⟩ := klmalloc_cell h1 hpos hb (update_self _ _ _)
    have hne := h.runs.base_ne_of_fresh (R := ⟨c.base,.small _⟩) hf hb
    refine ⟨r,s,sh',?_,ha.inv,ha.ptr,⟨?_,?_⟩,ha.room,ha.big⟩
    · rw [if_pos he,hn]
      exact ht
    · rw [← taken_newPage hne]
      exact ha.takes.free
    · intro s'
      rw [ha.takes.iff,taken_newPage hne]
  · have hl := h.bins.linked _ hb
    cases hp : sh.pages (klmallocBinSize size) with
    | nil =>
      rw [hp] at hl
      exact absurd (toPtr_eq_none hl) he
    | cons x rest =>
      rw [hp] at hl
      have hh := (toPtr_eq_some hl.1).1
      have hx := ((h.bins.page _ hb x).1 (hp ▸ mem_cons_self)).1
      obtain ⟨r,s,sh',ht,ha⟩ := klmalloc_cell h hpos hb hp
      refine ⟨r,s,sh',?_,ha⟩
      rw [if_neg he,hh,assert_ok (h.runs.magic _ hx)]
      exact ht

private theorem klmalloc_big (hs : size+bigHeader<2^64) (hb : ¬ klmallocBinSize size<bigBin)
    (hf : grows size st → FreshRegion st.regions c.base (growth size)) :
    ∃ r s sh', klmalloc c size st = .ok r ∧ Allocates size sh r s sh' := by
  have hfi := h.freeRuns.findbest h.runs size
  unfold klmalloc
  rw [if_neg (by omega),if_neg hb,hfi]
  cases hfir : notBelow (bigSize st) size (sh.levels 0) with
  | nil =>
    rw [hfir] at hfi
    have hf : FreshRegion st.regions c.base (pageSize * bigPages size) := by
      unfold grows growth at hf
      rw [if_neg hb,if_neg hb] at hf
      exact hf hfi
    obtain ⟨st',hn,hinv⟩ := h.newBigRun hf
    have hv : (Kind.big (bigPages size)).Valid := Nat.succ_pos _
    have hne := h.runs.base_ne_of_fresh (R := ⟨c.base,.big (bigPages size)⟩) hf hv
    refine ⟨_,_,_,hn,hinv,rfl,takes_newRun h hne,?_,fun _ => ⟨_,rfl⟩⟩
    simp only [Slot.capacity,bigPages,Nat.mod_eq_of_lt hs]
    unfold bigHeader pageSize
    omega
  | cons x R =>
    have hmem := hfir ▸ mem_cons_self
    obtain ⟨hfr,hle⟩ := mem_notBelow.1 hmem
    obtain ⟨n,hx⟩ := h.freeRuns.big x hfr
    obtain ⟨st1,st2,hd,hp,hinv⟩ := h.takeRun hfir
    have ht : Takes sh { sh with levels := eraseFrom x sh.levels } _ :=
      takes_run h hx hfr fun y => by simp [eraseFrom,and_comm]
    refine ⟨(x+bigHeader, st2),_,_,?_,hinv,rfl,ht,?_,fun _ => ⟨n,rfl⟩⟩
    · change (do assert (st.mem (sizeAt x) ≥ size); _)=_
      rw [assert_ok (by exact hle)]
      rw [hd]
      exact hp
    · have hs := h.runs.bigSize_eq hx
      unfold bigSize at hle
      simp only [Slot.capacity]
      rw [Nat.mul_comm]
      omega

theorem klmalloc_spec (hs : size+bigHeader<2^64)
    (hf : grows size st → FreshRegion st.regions c.base (growth size)) :
    ∃ r s sh', klmalloc c size st = .ok r ∧ Allocates size sh r s sh' := by
  by_cases hb : klmallocBinSize size<bigBin
  · exact klmalloc_small h hpos hb hf
  · exact klmalloc_big h hpos hs hb hf

end

private theorem raiseLevel_le (coins : Nat → Bool) (n level : Nat) :
    raiseLevel coins n level≤level+n := by
  induction n generalizing level with
  | zero => exact Nat.le_refl level
  | succ n ih =>
    unfold raiseLevel
    split
    · exact Nat.le_trans (ih _) (by omega)
    · omega

private theorem klmallocRandomLevel_le : klmallocRandomLevel coins ≤ skipMaxLevel := by
  have := raiseLevel_le coins skipMaxLevel 0
  rwa [Nat.zero_add] at this

/-- The pointers to a slot: its first byte and, in a run, the start of the second page. -/
inductive Slot.PointedBy : Slot → Nat → Prop
  | first (s : Slot) : PointedBy s s.ptr
  | page (x n : Nat) : PointedBy ⟨⟨x,.big n⟩,x+bigHeader⟩ (x+pageSize)

theorem Slot.PointedBy.le {s : Slot} (h : s.PointedBy p) : s.ptr≤p := by
  cases h with
  | first => exact Nat.le_refl _
  | page x n => exact Nat.add_le_add_left (by decide) x

private theorem page_of_lt (ha : x%pageSize=0) (hl : x≤p) (hh : p<x+pageSize) :
    p/pageSize*pageSize=x := by
  unfold pageSize at *
  omega

section Free
variable (h : HeapInv st sh)
include h

theorem Taken.ptr_not_aligned (ht : Taken sh s) :
    s.run.base < s.ptr ∧ s.ptr < s.run.base+pageSize ∧ s.ptr%pageSize≠0 := by
  have ha := h.runs.aligned _ ht.slot.run_mem
  have hr : s.run.base < s.ptr ∧ s.ptr < s.run.base+pageSize := by
    cases ht.slot with
    | @cell x b c hx hc =>
      have hb := hc.bounds
      have hs : 0<cellSize b := Nat.two_pow_pos _
      unfold binHeader at hb
      dsimp only
      omega
    | run hx =>
      dsimp only
      unfold bigHeader pageSize
      omega
  unfold pageSize at *
  omega

theorem Taken.header_eq (ht : Taken sh s) (hp : s.PointedBy ptr) :
    (if ptr%pageSize=0 then ptr-1 else ptr) / pageSize*pageSize=s.run.base := by
  have ha := h.runs.aligned _ ht.slot.run_mem
  cases hp with
  | first =>
    obtain ⟨hl,hh,hne⟩ := ht.ptr_not_aligned h
    rw [if_neg hne]
    exact page_of_lt ha (Nat.le_of_lt hl) hh
  | page x n =>
    rw [if_pos (by rw [Nat.add_mod_right]; exact ha)]
    apply page_of_lt ha <;> simp only [pageSize] <;> omega

theorem Taken.ptr_pos (ht : Taken sh s) (hp : s.PointedBy ptr) : ptr≠0 := by
  cases hp with
  | first =>
    have := (ht.ptr_not_aligned h).1
    omega
  | page x n =>
    unfold pageSize
    omega

private theorem klfree_cell (ht : Taken sh ⟨⟨x,.small b⟩,d⟩) :
    ∃ st' sh', klfree c d st = .ok st' ∧ HeapInv st' sh' ∧ Takes sh' sh ⟨⟨x,.small b⟩,d⟩ ∧
      d∈sh'.free x := by
  obtain ⟨hx,hc,hf⟩ := taken_cell.1 ht
  have hh := ht.header_eq h (.first _)
  have ha := h.runs.aligned _ hx
  obtain ⟨hs,hle,-⟩ := h.runs.small_size hx
  have hne := (ht.ptr_not_aligned h).2.2
  obtain ⟨st',hg,hinv⟩ := h.giveCell hx hc hf
  refine ⟨st',_,?_,hinv,?_,?_⟩
  · unfold klfree
    rw [if_neg (ht.ptr_pos h (.first _))]
    dsimp only
    rw [hh,if_neg hne,assert_ok ha,if_neg (not_not.2 (h.runs.magic _ hx)),
      if_neg (by rw [hs]; omega),hs]
    exact hg
  · have hb : update (update sh.free x (d::sh.free x)) x (sh.free x)=sh.free := by
      rw [update_idem,update_eq_self]
    have hta := takes_cell sh.pages hinv hx (update_self _ _ _)
    rwa [hb] at hta
  · dsimp only
    rw [update_self]
    exact mem_cons_self

private theorem klfree_run (ht : Taken sh ⟨⟨x,.big n⟩,x+bigHeader⟩)
    (hp : Slot.PointedBy ⟨⟨x,.big n⟩,x+bigHeader⟩ ptr) :
    ∃ st' sh', klfree c ptr st = .ok st' ∧ HeapInv st' sh' ∧
      Takes sh' sh ⟨⟨x,.big n⟩,x+bigHeader⟩ ∧ x∈sh'.levels 0 := by
  obtain ⟨hx,-,hf⟩ := taken_run.1 ht
  have hhd := ht.header_eq h hp
  have ha := h.runs.aligned _ hx
  have hb : st.mem (sizeAt x) > numBins := by
    have hs := h.runs.bigSize_eq hx
    unfold numBins bigHeader pageSize at *
    omega
  obtain ⟨st1,st2,levels,hpu,hh,hi,hinv,hl⟩ := h.giveRun hx hf klmallocRandomLevel_le
  refine ⟨st2,_,?_,hinv,?_,(hl x).2 (.inl rfl)⟩
  · unfold klfree
    rw [if_neg (ht.ptr_pos h hp)]
    dsimp only
    rw [hhd,assert_ok ha,if_neg (not_not.2 (h.runs.magic _ hx)),if_pos hb,
      assert_ok (h.runStacks.taken x n hx hf),assert_ok (h.runs.bigSizeOk hx),hpu]
    change (do assert (st1.mem (headAt x)≠0); _)=_
    rw [assert_ok hh]
    exact hi
  · apply takes_run hinv hx ((hl x).2 (.inl rfl))
    intro y
    rw [hl]
    constructor
    · intro hy
      exact ⟨fun hyx => hf (hyx ▸ hy),.inr hy⟩
    · rintro ⟨hyx,hy⟩
      exact hy.resolve_left hyx

theorem klfree_spec (ht : Taken sh s) (hp : s.PointedBy ptr) :
    ∃ st' sh', klfree c ptr st = .ok st' ∧ HeapInv st' sh' ∧ Takes sh' sh s ∧ s.Free sh' := by
  cases ht.slot with
  | cell hx hc =>
    cases hp with
    | first => exact klfree_cell h ht
  | run hx => exact klfree_run h ht hp
end Free
end RazionOS.Kernel.Malloc
