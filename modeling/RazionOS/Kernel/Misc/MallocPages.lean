import RazionOS.Kernel.Misc.MallocHeap

/-! # Pages of cells -/

namespace RazionOS.Kernel.Malloc
open Framework Function List Heap

@[simp] theorem Heap.write_mem (st : Heap) (a v a' : Nat) :
    (st.write a v).mem a' = if a' = a then v else st.mem a' := by
  by_cases ha : a' = a <;> simp [write,ha]

@[simp] theorem Heap.write_binHead (st : Heap) : (st.write a v).binHead=st.binHead := rfl

@[simp] theorem touches_write (st : Heap) (v : Nat) (ha : InPart runs p a) :
    Touches runs p st (st.write a v) := by
  intro a' ha'
  rw [write_mem,if_neg]
  rintro rfl
  exact ha' ha

section Cells
theorem IsCell.apart (hc : IsCell x b c) (hc' : IsCell x b c') (hne : c≠c') :
    c + cellSize b≤c' ∨ c' + cellSize b≤c := by
  obtain ⟨k,rfl,-⟩ := hc
  obtain ⟨k',rfl,-⟩ := hc'
  have hk : k≠k' := by
    rintro rfl
    exact hne rfl
  rcases Nat.lt_or_gt_of_ne hk with hlt | hlt
  · have := Nat.mul_le_mul_right (cellSize b) hlt
    rw [Nat.succ_mul] at this
    omega
  · have := Nat.mul_le_mul_right (cellSize b) hlt
    rw [Nat.succ_mul] at this
    omega

variable (hruns : Runs st runs)
include hruns

theorem Runs.cell_ne_head (hx : ⟨x,.small b⟩∈runs) (hx' : ⟨x',.small b'⟩∈runs)
    (hc : IsCell x b c) : c≠headAt x' := by
  obtain ⟨hl,hh⟩ := hc.bounds
  have hs : 0<cellSize b := Nat.two_pow_pos _
  intro heq
  have hi := hruns.offset_inj hx hx' (by change c - x<pageSize; omega)
    (by decide : 8<pageSize) (by change x + (c-x)=x'+8; unfold headAt at heq; omega)
  unfold binHeader at hl
  omega

private theorem Runs.cell_ne_cell (hx : ⟨x,.small b⟩∈runs) (hx' : ⟨x',.small b'⟩∈runs)
    (hc : IsCell x b c) (hc' : IsCell x' b' c') (hne : x≠x') : c≠c' := by
  obtain ⟨hl,hh⟩ := hc.bounds
  obtain ⟨hl',hh'⟩ := hc'.bounds
  have hs : 0<cellSize b := Nat.two_pow_pos _
  have hs' : 0<cellSize b' := Nat.two_pow_pos _
  intro heq
  have hi := hruns.offset_inj hx hx' (by change c - x<pageSize; omega)
    (by change c' - x' < pageSize; omega) (by change x + (c-x)=x'+(c'-x'); omega)
  exact hne (congrArg Run.base hi.1)

theorem Runs.bin_eq (hx : ⟨x,.small b⟩∈runs) (hx' : ⟨x,.small b'⟩∈runs) : b=b' := by
  have := hruns.base_inj hx hx' rfl
  simpa using this
end Cells

section Stacks
variable {free pages : Nat → List Nat} {x b c : Nat} (hruns : Runs st runs)
  (hstacks : Stacks st runs free) (hx : ⟨x,.small b⟩ ∈ runs)
include hruns hstacks hx

theorem Stacks.set (hl : Linked (st'.cells x) F) (hce : ∀ c∈F, IsCell x b c)
    (hmem : ∀ a, StackWord runs free a → a≠headAt x → (∀ c, IsCell x b c → a≠c) →
      st'.mem a=st.mem a) : Stacks st' runs (update free x F) := by
  have ho : ∀ x' b', ⟨x',.small b'⟩∈runs → x' ≠ x → Linked (st'.cells x') (free x') := by
    intro x' b' hx' hne
    apply (hstacks.linked x' b' hx').congr
    · have hh : st'.mem (headAt x')=st.mem (headAt x') := by
        apply hmem _ ⟨x',b',hx',.inl rfl⟩
        · unfold headAt
          omega
        · intro c hc
          exact (hruns.cell_ne_head hx hx' hc).symm
      simp [cells,hh]
    · intro c' hc'
      have hce' := hstacks.cell x' b' hx' c' hc'
      have hw : st'.mem c' = st.mem c' := by
        apply hmem _ ⟨x',b',hx',.inr hc'⟩ (hruns.cell_ne_head hx' hx hce')
        intro c hc
        exact hruns.cell_ne_cell hx' hx hce' hc hne
      simp [cells,hw]
  constructor
  · intro x' b' hx'
    by_cases hxx : x' = x
    · subst hxx
      rwa [update_self]
    · rw [update_of_ne hxx]
      exact ho x' b' hx' hxx
  · intro x' b' hx' c' hc'
    by_cases hxx : x' = x
    · subst hxx
      rw [update_self] at hc'
      rw [← hruns.bin_eq hx hx']
      exact hce c' hc'
    · rw [update_of_ne hxx] at hc'
      exact hstacks.cell x' b' hx' c' hc'

omit hruns in
theorem Stacks.head_eq (hf : free x=c::F) :
    st.mem (headAt x)=c ∧ c≠0 ∧ toPtr (st.mem c)=F.head? := by
  have hl := hstacks.linked x b hx
  rw [hf] at hl
  have hh := toPtr_eq_some hl.1
  refine ⟨hh.1,hh.2,?_⟩
  have hr := hl.2
  cases F with
  | nil => exact hr
  | cons d F => exact hr.1

private theorem Stacks.pop (hf : free x=c::F) :
    Stacks (st.write (headAt x) (st.mem c)) runs (update free x F) := by
  have hl := hstacks.linked x b hx
  rw [hf] at hl
  have hc := hf ▸ hstacks.cell x b hx
  apply hstacks.set hruns hx
  · apply Linked.remove (A := []) hl
    · simp [cells]
    · rintro q hq hn
      rcases hq with rfl | ⟨d,hd,rfl⟩
      · exact absurd rfl hn
      · have hne := hruns.cell_ne_head hx hx (hc d (mem_cons_of_mem c hd))
        simp [cells,hne]
  · intro d hd
    exact hc d (mem_cons_of_mem c hd)
  · intro a _ hne _
    rw [write_mem,if_neg hne]

private theorem Stacks.push (hc : IsCell x b c) (hnew : c∉free x) (hpos : c≠0) :
    Stacks ((st.write c (st.mem (headAt x))).write (headAt x) c) runs
      (update free x (c::free x)) := by
  have hl := hstacks.linked x b hx
  have hne := hruns.cell_ne_head hx hx hc
  apply hstacks.set hruns hx
  · apply Linked.insert (A := []) hl
    · simp [cells,toPtr_of_ne hpos]
    · simp [cells,hne]
    · rintro q hq hn
      rcases hq with rfl | ⟨d,hd,rfl⟩
      · exact absurd rfl hn
      have hdh := hruns.cell_ne_head hx hx (hstacks.cell x b hx d hd)
      have hdc : d≠c := fun hdc => hnew (hdc ▸ hd)
      simp [cells,hdh,hdc]
  · intro d hd
    rcases mem_cons.1 hd with rfl | hd
    · exact hc
    · exact hstacks.cell x b hx d hd
  · intro a _ hh hce
    rw [write_mem,if_neg hh,write_mem,if_neg (hce c hc)]
end Stacks

section Bins
variable {free pages : Nat → List Nat} {x b : Nat} (hruns : Runs st runs)
  (hbins : Bins st runs free pages) (hx : ⟨x,.small b⟩ ∈ runs)
include hruns hbins hx

theorem Bins.ne_of_mem (hb' : b' < bigBin) (hbb : b' ≠ b) (hy : y∈pages b') : y≠x := by
  intro hyx
  subst hyx
  exact hbb (hruns.bin_eq ((hbins.page b' hb' y).1 hy).1 hx)

/-- The stack of one page changes, and with it whether the page is in its list. -/
theorem Bins.page_update (hP : ∀ y, y∈P ↔ if y=x then F≠[] else y∈pages b) : ∀ b' < bigBin, ∀ y,
      y∈update pages b P b' ↔ ⟨y,.small b'⟩∈runs ∧ update free x F y≠[] := by
  intro b' hb' y
  by_cases hyx : y=x
  · subst hyx
    rw [update_self]
    by_cases hbb : b' = b
    · subst hbb
      rw [update_self,hP,if_pos rfl,and_iff_right hx]
    · rw [update_of_ne hbb]
      exact iff_of_false (fun hy => hbins.ne_of_mem hruns hx hb' hbb hy rfl)
        fun hy => hbb (hruns.bin_eq hy.1 hx)
  · rw [update_of_ne hyx,← hbins.page b' hb' y]
    by_cases hbb : b' = b
    · subst hbb
      rw [update_self,hP,if_neg hyx]
    · rw [update_of_ne hbb]

omit hruns hx in
theorem Bins.linked_insert (hpos : x≠0) (hne : ∀ b' < bigBin, x∉pages b') :
    ∀ b' < bigBin, Linked ((klmallocListInsert b x st).pageList b')
      (update pages b (x::pages b) b') := by
  intro b' hb'
  have hl := hbins.linked b' hb'
  have ho : ∀ y∈pages b', y≠x := fun y hy hyx => hne b' hb' (hyx ▸ hy)
  by_cases hbb : b' = b
  · subst hbb
    rw [update_self]
    apply Linked.insert (A := []) hl
    · simp [pageList,klmallocListInsert,toPtr_of_ne hpos]
    · simp [pageList,klmallocListInsert]
    rintro q (rfl | ⟨y,hy,rfl⟩) hn
    · exact absurd rfl hn
    · simp [pageList,klmallocListInsert,nextAt,ho y hy]
  · rw [update_of_ne hbb]
    apply hl.congr
    · simp [pageList,klmallocListInsert,hbb]
    · intro y hy
      simp [pageList,klmallocListInsert,nextAt,ho y hy]

private theorem Bins.linked_decouple (hp : pages b=x::rest) :
    ∀ b' < bigBin, Linked ((klmallocListDecouple b x st).pageList b') (update pages b rest b') := by
  intro b' hb'
  have hl := hbins.linked b' hb'
  by_cases hbb : b' = b
  · subst hbb
    rw [hp] at hl
    have hnd := nodup_cons.1 hl.nodup
    rw [update_self]
    apply Linked.remove (A := []) hl
    · simp [pageList,klmallocListDecouple]
    rintro q (rfl | ⟨y,hy,rfl⟩) hn
    · exact absurd rfl hn
    · have hyx : y≠x := fun hyx => hnd.1 (hyx ▸ hy)
      simp [pageList,klmallocListDecouple,nextAt,hyx]
  · rw [update_of_ne hbb]
    apply hl.congr
    · simp [pageList,klmallocListDecouple,hbb]
    intro y hy
    have hyx := hbins.ne_of_mem hruns hx hb' hbb hy
    simp [pageList,klmallocListDecouple,nextAt,hyx]
end Bins

theorem HeapInv.set_cells {free pages : Nat → List Nat} (h : HeapInv st sh)
    (hst : st' = { st with mem := st'.mem, binHead := st'.binHead })
    (hmem : ∀ a, ¬ InPart sh.runs .stack a → ¬ InPart sh.runs .bin a → st'.mem a=st.mem a)
    (hstacks : Stacks st' sh.runs free) (hbins : Bins st' sh.runs free pages) :
    HeapInv st' { sh with free, pages } := by
  have hk : ∀ p a, p ≠ .stack → p ≠ .bin → InPart sh.runs p a → st'.mem a=st.mem a := by
    intro p a hs hb ha
    apply hmem a
    · exact fun ha' => hs (h.runs.part_unique ha ha')
    · exact fun ha' => hb (h.runs.part_unique ha ha')
  have hr : ∀ a, InPart sh.runs .run a → st'.mem a=st.mem a :=
    fun a => hk .run a (by decide) (by decide)
  refine ⟨h.runs.congr (by rw [hst]) hr,hstacks,hbins,
    h.freeRuns.congr h.runs (by rw [hst]) (by rw [hst]) ?_,h.runStacks.congr ?_,?_⟩
  · rintro a (ha | ha)
    · exact hk .forward a (by decide) (by decide) ha
    · exact hr a ha
  · intro a ha
    exact hk .runStack a (by decide) (by decide) (ha.inPart h.runs)
  · rw [hst]
    exact h.newest

theorem assert_ok [Decidable p] (h : p) : assert p = .ok () := if_pos h

section Cells
variable {free : Nat → List Nat} {x b c : Nat} (hruns : Runs st runs) (hx : ⟨x,.small b⟩ ∈ runs)
include hruns hx

theorem Runs.small_size : st.mem (sizeAt x)=b ∧ b≤numBins ∧ b<bigBin := by
  have hb : b<bigBin := hruns.valid _ hx
  exact ⟨hruns.size _ hx,by unfold bigBin numBins at *; omega,hb⟩

private theorem Stacks.pop_eq (hstacks : Stacks st runs free) (hf : free x=c::F) :
    klmallocStackPop x st = .ok (c, st.write (headAt x) (st.mem c)) := by
  obtain ⟨hh,hpos,-⟩ := hstacks.head_eq hx hf
  have hc := hstacks.cell x b hx c (hf ▸ mem_cons_self)
  obtain ⟨hl,hhi⟩ := hc.bounds
  obtain ⟨hs,hle,-⟩ := hruns.small_size hx
  have hlen : 0<cellSize b := Nat.two_pow_pos _
  have hx0 := hruns.base_pos hx
  unfold binHeader at hl
  unfold klmallocStackPop assertHeadInside
  rw [hh,hs,assert_ok hx0,assert_ok hpos,assert_ok (by omega),if_neg (by omega),if_pos hle,
    assert_ok (by omega),
    assert_ok (by unfold binHeader; omega)]
  rfl

private theorem Runs.cell_aligned (hc : IsCell x b c) : (c-binHeader)%2 ^ (b+smallestBinLog)=0 := by
  obtain ⟨k,rfl,-⟩ := hc
  obtain ⟨-,-,hb⟩ := hruns.small_size hx
  have hp : 2^(b+smallestBinLog) ∣ pageSize := by
    apply Nat.pow_dvd_pow 2 (n := 12)
    unfold bigBin at hb
    unfold smallestBinLog
    omega
  have hba := Nat.dvd_trans hp (Nat.dvd_of_mod_eq_zero (hruns.aligned _ hx))
  have heq : x+binHeader+k * cellSize b - binHeader=x+k*2^(b+smallestBinLog) := by
    unfold cellSize
    omega
  rw [heq]
  exact Nat.mod_eq_zero_of_dvd (Nat.dvd_add hba (Nat.dvd_mul_left _ _))

private theorem Runs.push_eq (hc : IsCell x b c) :
    klmallocStackPush x c st = .ok ((st.write c (st.mem (headAt x))).write (headAt x) c) := by
  obtain ⟨hl,hh⟩ := hc.bounds
  obtain ⟨hs,hle,-⟩ := hruns.small_size hx
  have hlen : 0<cellSize b := Nat.two_pow_pos _
  have ha := hruns.cell_aligned hx hc
  unfold binHeader at hl
  unfold klmallocStackPush
  rw [hs,assert_ok (by omega),assert_ok (by omega),if_neg (by omega),assert_ok ha,
    assert_ok (by omega)]
  rfl
end Cells

theorem HeapInv.takeCell {x b : Nat} (h : HeapInv st sh) (hb : b<bigBin) (hp : sh.pages b=x::rest) :
    ∃ c F st', sh.free x=c::F ∧ takeCell b x st = .ok (c, st') ∧ HeapInv st' { sh with
        free := update sh.free x F
        pages := update sh.pages b (if F=[] then rest else x::rest) } := by
  obtain ⟨hx,hf⟩ := (h.bins.page b hb x).1 (hp ▸ mem_cons_self)
  obtain ⟨c,F,hf⟩ := exists_cons_of_ne_nil hf
  have hpo := h.cells.pop_eq h.runs hx hf
  have hstacks := h.cells.pop h.runs hx hf
  have hn := (h.cells.head_eq hx hf).2.2
  have ht := touches_write st (st.mem c) (h.runs.inPart_head hx)
  have hr1 : Runs (st.write (headAt x) (st.mem c)) sh.runs :=
    h.runs.congr rfl fun a => h.runs.keeps ht (by decide)
  have hbi1 : Bins (st.write (headAt x) (st.mem c)) sh.runs sh.free sh.pages :=
    h.bins.congr h.runs rfl fun a => h.runs.keeps ht (by decide)
  generalize hst1 : st.write (headAt x) (st.mem c)=st1 at *
  have hst : st1 = { st with mem := st1.mem, binHead := st1.binHead } := by rw [← hst1]; rfl
  have hh : st1.mem (headAt x)=st.mem c := by rw [← hst1,write_mem,if_pos rfl]
  cases F with
  | nil =>
    have he := hh.trans (toPtr_eq_none hn)
    have ht2 : Touches sh.runs .bin st1 (klmallocListDecouple b x st1) :=
      touches_write _ 0 (h.runs.inPart_next hx)
    refine ⟨c,[],klmallocListDecouple b x st1,hf,?_,?_⟩
    · rw [Malloc.takeCell,hpo]
      exact if_pos he
    apply h.set_cells (by rw [hst]; rfl)
    · intro a hs hbin
      exact (ht2 a hbin).trans (ht a hs)
    · apply hstacks.congr
      intro a ha
      exact h.runs.keeps ht2 (by decide) (ha.inPart hr1 hstacks)
    refine ⟨hbi1.linked_decouple hr1 hx hp,h.bins.page_update h.runs hx fun y => ?_⟩
    have hnd := nodup_cons.1 (hp ▸ (h.bins.linked b hb).nodup)
    rw [if_pos rfl]
    by_cases hyx : y=x
    · simp [hyx,hnd.1]
    · simp [hp,hyx]
  | cons d F =>
    have hne : st1.mem (headAt x)≠0 := by
      rw [hh,(toPtr_eq_some hn).1]
      exact (toPtr_eq_some hn).2
    refine ⟨c,d::F,st1,hf,?_,?_⟩
    · rw [Malloc.takeCell,hpo]
      exact if_neg hne
    apply h.set_cells hst (fun a hs _ => ht a hs) hstacks
    refine ⟨?_,h.bins.page_update h.runs hx fun y => ?_⟩
    · rw [if_neg (cons_ne_nil d F),← hp,update_eq_self]
      exact hbi1.linked
    · by_cases hyx : y=x <;> simp [hp,hyx]

private theorem HeapInv.giveCell_list (h : HeapInv st sh) (hx : ⟨x,.small b⟩∈sh.runs) :
    ∃ st', giveCell b x c st=klmallocStackPush x c st' ∧
      st' = { st with mem := st'.mem, binHead := st'.binHead } ∧ Touches sh.runs .bin st st' ∧
      ∀ b' < bigBin, Linked (st'.pageList b') (update sh.pages b
        (if sh.free x=[] then x::sh.pages b else sh.pages b) b') := by
  cases hf : sh.free x with
  | nil =>
    have hl := h.cells.linked x b hx
    rw [hf] at hl
    have he := toPtr_eq_none hl
    have hn : ∀ b' < bigBin, x∉sh.pages b' :=
      fun b' hb' hmem => ((h.bins.page b' hb' x).1 hmem).2 hf
    refine ⟨klmallocListInsert b x st,if_pos he,rfl,?_,?_⟩
    · exact touches_write st _ (h.runs.inPart_next hx)
    · exact h.bins.linked_insert (h.runs.base_pos hx) hn
  | cons d F =>
    obtain ⟨hh,hpos,-⟩ := h.cells.head_eq hx hf
    refine ⟨st,if_neg (by rwa [hh]),rfl,fun _ _ => rfl,?_⟩
    rw [if_neg (cons_ne_nil d F),update_eq_self]
    exact h.bins.linked

theorem HeapInv.giveCell (h : HeapInv st sh) (hx : ⟨x,.small b⟩∈sh.runs) (hc : IsCell x b c)
    (hnew : c∉sh.free x) :
    ∃ st', giveCell b x c st = .ok st' ∧ HeapInv st' { sh with
        free := update sh.free x (c::sh.free x)
        pages := update sh.pages b (if sh.free x=[] then x::sh.pages b else sh.pages b) } := by
  have hpos : c≠0 := by
    have := hc.bounds.1
    unfold binHeader at this
    omega
  obtain ⟨st1,hg,hst,ht,hl⟩ := h.giveCell_list hx
  have hr1 := h.runs.congr (by rw [hst]) fun a => h.runs.keeps ht (by decide)
  have hsta1 : Stacks st1 sh.runs sh.free := by
    apply h.cells.congr
    intro a ha
    exact h.runs.keeps ht (by decide) (ha.inPart h.runs h.cells)
  have hstacks := hsta1.push hr1 hx hc hnew hpos
  have hp := h.bins.page_update h.runs hx (F := c::sh.free x)
    (P := if sh.free x=[] then x::sh.pages b else sh.pages b) fun y => by
      have hin := h.bins.page b (h.runs.valid _ hx) x
      by_cases hyx : y=x <;> by_cases hf : sh.free x=[] <;> simp [hyx,hf,hin,hx]
  have hbi1 : Bins st1 sh.runs (update sh.free x (c::sh.free x)) _ := ⟨hl,hp⟩
  have hs : ∀ a, ¬ InPart sh.runs .stack a →
      ((st1.write c (st1.mem (headAt x))).write (headAt x) c).mem a=st1.mem a := by
    intro a ha
    rw [touches_write _ c (h.runs.inPart_head hx) a ha,touches_write _ _ (hc.inPart hx) a ha]
  refine ⟨_,hg.trans (hr1.push_eq hx hc),?_⟩
  apply h.set_cells (by rw [hst]; rfl)
  · intro a hns hn
    exact (hs a hns).trans (ht a hn)
  · exact hstacks
  refine hbi1.congr hr1 rfl ?_
  intro a ha
  apply hs a
  intro ha'
  cases h.runs.part_unique ha ha'
end RazionOS.Kernel.Malloc
