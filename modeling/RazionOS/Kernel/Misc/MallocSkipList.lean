import Mathlib.Data.List.Perm.Subperm
import RazionOS.Kernel.Misc.MallocHeap

/-! # The free runs -/

namespace RazionOS.Kernel.Malloc
open Framework List

section Search
theorem Runs.bigSizeOk (h : Runs st runs) (hx : ⟨x,.big n⟩∈runs) : st.bigSizeOk x := by
  have hs : st.mem (sizeAt x)=n*pageSize-bigHeader := h.size _ hx
  have hn : 0<n := h.valid _ hx
  unfold Heap.bigSizeOk
  rw [hs]
  unfold pageSize bigHeader
  omega

private theorem skipAdvance_eq (hl : LinkedFrom (st.forward i) node (B++R))
    (hB : ∀ y∈B, bigSize st y < size ∧ st.bigSizeOk y) (hR : ∀ y∈R, size≤bigSize st y)
    (hf : B.length<fuel) : skipAdvance size i st fuel node = .ok (B.getLast?.or node) := by
  induction B generalizing node fuel with
  | nil =>
    obtain ⟨fuel,rfl⟩ : ∃ f, fuel=f+1 := ⟨fuel-1,by simp at hf; omega⟩
    cases R with
    | nil =>
      have hn : st.forward i node=none := hl
      simp [skipAdvance,hn]
    | cons y R =>
      have hy : ¬ st.mem (sizeAt y) < size := by
        have := hR y mem_cons_self
        unfold bigSize at this
        omega
      simp [skipAdvance,hl.1,hy]
  | cons y B ih =>
    obtain ⟨fuel,rfl⟩ : ∃ f, fuel=f+1 := ⟨fuel-1,by simp at hf; omega⟩
    obtain ⟨hs,hok⟩ := hB y mem_cons_self
    have hf' : B.length<fuel := by
      simp only [length_cons] at hf
      omega
    have hr := ih hl.2 (fun z hz => hB z (mem_cons_of_mem y hz)) hf'
    have hs : st.mem (sizeAt y) < size := hs
    simp only [skipAdvance,hl.1,hs,hok]
    rw [LinkedFrom.getLast?_cons_or]
    exact hr

variable (hruns : Runs st runs) (hfree : FreeRuns st runs levels)
include hruns hfree

omit hruns in
private theorem FreeRuns.length_le : (levels 0).length ≤ runs.length := by
  have hnd := (hfree.linked 0 (Nat.zero_le _)).nodup
  have hsub : levels 0 ⊆ runs.map Run.base := by
    intro x hx
    obtain ⟨n,hx⟩ := hfree.big x hx
    exact mem_map.2 ⟨_,hx,rfl⟩
  have := (hnd.subperm hsub).length_le
  rwa [length_map] at this

private theorem FreeRuns.skipAdvance_spec (size : Nat) (hi : i ≤ skipMaxLevel) :
    skipAdvance size i st st.fuel (below (bigSize st) size (levels (i+1))).getLast? =
      .ok (below (bigSize st) size (levels i)).getLast? := by
  obtain ⟨A,B,hs,hla⟩ : ∃ A B, below (bigSize st) size (levels i)=A++B ∧
      A.getLast? = (below _ size (levels (i+1))).getLast? :=
    exists_getLast?_below (hfree.sorted.sub i) size
  have ha := hfree.sorted.append_eq size i
  have hl := hfree.linked i hi
  rw [← ha,hs,append_assoc] at hl
  have hB : ∀ y∈B, bigSize st y < size ∧ st.bigSizeOk y := by
    intro y hy
    have hmem : y∈below (bigSize st) size (levels i) := by
      rw [hs]
      exact mem_append_right _ hy
    obtain ⟨n,hru⟩ := hfree.big y ((hfree.sorted.sub_zero i).subset (mem_below.1 hmem).1)
    exact ⟨(mem_below.1 hmem).2,hruns.bigSizeOk hru⟩
  have hf : B.length < st.fuel := by
    have h1 : (below (bigSize st) size (levels i)).length≤(levels 0).length :=
      (filter_sublist.trans (hfree.sorted.sub_zero i)).length_le
    have h2 := hfree.length_le
    rw [hs,length_append] at h1
    rw [Heap.fuel,hruns.regions,length_map]
    omega
  have hr := skipAdvance_eq hl.last hB (fun y hy => (mem_notBelow.1 hy).2) hf
  rw [← hla,hr,hs,getLast?_append]

private theorem FreeRuns.skipSearch_spec (hn : n ≤ skipMaxLevel+1) (update : Nat → Option Nat) :
    ∃ update', skipSearch size st n (below (bigSize st) size (levels n)).getLast? update =
        .ok ((below (bigSize st) size (levels 0)).getLast?, update') ∧ ∀ i, update' i =
        if i<n then (below (bigSize st) size (levels i)).getLast? else update i := by
  induction n generalizing update with
  | zero => exact ⟨update,rfl,fun i => by simp⟩
  | succ n ih =>
    have ha := hfree.skipAdvance_spec hruns size (by omega : n ≤ skipMaxLevel)
    obtain ⟨update',hs,hu⟩ := ih (by omega) _
    refine ⟨update',?_,?_⟩
    · rw [skipSearch,ha]
      exact hs
    intro i
    rw [hu]
    by_cases hi : i<n
    · rw [if_pos hi,if_pos (by omega)]
    by_cases hin : i=n
    · subst hin
      simp
    · rw [if_neg hi,if_neg (by omega),Function.update_of_ne hin]

theorem FreeRuns.search : ∃ update, skipSearch size st (st.level+1) none (fun _ => none) =
        .ok ((below (bigSize st) size (levels 0)).getLast?, update) ∧
      (fun i => if st.level < i then none else update i) =
        fun i => (below (bigSize st) size (levels i)).getLast? := by
  have ht := hfree.top
  obtain ⟨update,hs,hu⟩ := hfree.skipSearch_spec hruns
    (by omega : st.level+1 ≤ skipMaxLevel+1) fun _ => none
  rw [hfree.empty _ (by omega)] at hs
  refine ⟨update,hs,?_⟩
  funext i
  by_cases hi : st.level < i
  · rw [if_pos hi,hfree.empty i hi]
    rfl
  · rw [if_neg hi,hu,if_pos (by omega)]

omit hruns in
theorem FreeRuns.forward_last (size : Nat) (hi : i ≤ skipMaxLevel) :
    st.forward i (below (bigSize st) size (levels i)).getLast? =
      (notBelow (bigSize st) size (levels i)).head? := by
  have hli := hfree.linked i hi
  rw [← hfree.sorted.append_eq size i] at hli
  have hl := hli.last
  cases hr : notBelow (bigSize st) size (levels i) with
  | nil =>
    rw [hr] at hl
    exact hl
  | cons y R =>
    rw [hr] at hl
    exact hl.1

/-- The best fit is the first run of the list that is big enough. -/
theorem FreeRuns.findbest (size : Nat) :
    klmallocSkipListFindbest size st = .ok (notBelow (bigSize st) size (levels 0)).head? := by
  obtain ⟨update,hs,-⟩ := hfree.search hruns
  have hn := hfree.forward_last size (Nat.zero_le _)
  unfold klmallocSkipListFindbest
  rw [hs]
  cases hr : (notBelow (bigSize st) size (levels 0)).head? with
  | none =>
    rw [hr] at hn
    simp [hn]
  | some x =>
    rw [hr] at hn
    have hx : x∈levels 0 := (mem_notBelow.1 (mem_of_mem_head? hr)).1
    obtain ⟨n,hru⟩ := hfree.big x hx
    have ha := hruns.aligned _ hru
    have hok := hruns.bigSizeOk hru
    simp [hn,assert,ha,hok]
end Search

def IsNode (runs : List Run) : Option Nat → Prop
  | none => True
  | some x => ∃ n, ⟨x,.big n⟩∈runs

structure Relinks (runs : List Run) (st st' : Heap) : Prop where
  touches : Touches runs .forward st st'
  binHead : st'.binHead=st.binHead
  newestBig : st'.newestBig=st.newestBig
  regions : st'.regions=st.regions

private theorem Relinks.refl : Relinks runs st st := ⟨fun _ _ => rfl,rfl,rfl,rfl⟩

theorem Relinks.trans (h : Relinks runs st st') (h' : Relinks runs st' st'') :
    Relinks runs st st'' :=
  ⟨fun a ha => (h'.touches a ha).trans (h.touches a ha),h'.binHead.trans h.binHead,
    h'.newestBig.trans h.newestBig,h'.regions.trans h.regions⟩

section Links
variable (hruns : Runs st runs)
include hruns

theorem Runs.forward_setForward (s : Heap) (hi : i ≤ skipMaxLevel) (hj : j ≤ skipMaxLevel)
    (hp : IsNode runs p) (hq : IsNode runs q) (hv : v≠some 0) :
    (s.setForward i p v).forward j q=if j=i ∧ q=p then v else s.forward j q := by
  unfold skipMaxLevel at hi hj
  cases p with
  | none =>
    cases q with
    | none =>
      by_cases hij : j=i
      · simp [Heap.setForward,Heap.forward,hij,hv]
      · simp [Heap.setForward,Heap.forward,hij]
    | some y => simp [Heap.setForward,Heap.forward]
  | some x =>
    cases q with
    | none => simp [Heap.setForward,Heap.forward,Heap.write]
    | some y =>
      by_cases hs : j=i ∧ y=x
      · simp [Heap.setForward,Heap.forward,Heap.write,hs,hv]
      have hne : forwardAt y j≠forwardAt x i := by
        intro heq
        obtain ⟨n,hx⟩ := hp
        obtain ⟨m,hy⟩ := hq
        have hlen := Kind.header_le_length (hruns.valid _ hx)
        have hlen' := Kind.header_le_length (hruns.valid _ hy)
        unfold bigHeader at hlen hlen'
        have hin := hruns.offset_inj hy hx (by omega : 40+8*j<_)
          (by omega : 40+8*i<_) (by simpa [forwardAt,Nat.add_assoc] using heq)
        have hr := congrArg Run.base hin.1
        exact hs ⟨by omega,hr⟩
      simp [Heap.setForward,Heap.forward,Heap.write,hne,hs]

theorem Runs.relinks_setForward (s : Heap) (hi : i ≤ skipMaxLevel) (hp : IsNode runs p)
    (v : Option Nat) : Relinks runs s (s.setForward i p v) := by
  cases p with
  | none => exact ⟨fun _ _ => rfl,rfl,rfl,rfl⟩
  | some x =>
    obtain ⟨n,hx⟩ := hp
    refine ⟨?_,rfl,rfl,rfl⟩
    intro a ha
    apply Function.update_of_ne
    rintro rfl
    exact ha (hruns.inPart_forward hx hi)

private theorem Relinks.bigSize_eq (hl : Relinks runs s s') (hx : ⟨x,.big n⟩∈runs) :
    bigSize s' x=bigSize s x :=
  hruns.keeps hl.touches (by decide) (hruns.inPart_run hx).1

theorem Relinks.bigSizeOk (hl : Relinks runs st s) (hx : ⟨x,.big n⟩∈runs) : s.bigSizeOk x := by
  have hok := hruns.bigSizeOk hx
  unfold Heap.bigSizeOk at *
  rwa [hruns.keeps hl.touches (by decide) (hruns.inPart_run hx).1]

theorem FreeRuns.of_links (hl : Relinks runs st s')
    (hli : ∀ i ≤ skipMaxLevel, Linked (s'.forward i) (levels i))
    (hs : Levels (bigSize st) levels) (hb : ∀ x∈levels 0, ∃ n, ⟨x,.big n⟩∈runs)
    (ht : s'.level ≤ skipMaxLevel) (he : ∀ i, s'.level < i → levels i=[]) :
    FreeRuns s' runs levels := by
  refine ⟨hli,⟨hs.ascending.imp_of_mem ?_,hs.sub⟩,hb,ht,he⟩
  intro x y hx hy hxy
  obtain ⟨n,hx⟩ := hb x hx
  obtain ⟨m,hy⟩ := hb y hy
  rwa [hl.bigSize_eq hruns hx,hl.bigSize_eq hruns hy]

omit hruns in
theorem isNode_getLast? {A : List Nat} (hA : ∀ y∈A, IsNode runs (some y)) :
    IsNode runs A.getLast? := by
  cases hl : A.getLast? with
  | none => trivial
  | some y => exact hA y (mem_of_getLast? hl)

omit hruns in
@[simp] theorem Heap.setForward_level (s : Heap) : (s.setForward i p v).level=s.level := by
  cases p <;> rfl

structure LinksLevel (runs : List Run) (i : Nat) (s s' : Heap) : Prop where
  relinks : Relinks runs s s'
  level : s'.level=s.level
  other : ∀ j ≤ skipMaxLevel, j≠i → ∀ q, IsNode runs q → s'.forward j q=s.forward j q

omit hruns in
theorem LinksLevel.linked (hlv : LinksLevel runs i s s') (hj : j ≤ skipMaxLevel) (hne : j≠i)
    (hl : ∀ y∈l, IsNode runs (some y)) (hli : Linked (s.forward j) l) : Linked (s'.forward j) l :=
  hli.congr (hlv.other j hj hne none trivial) fun y hy => hlv.other j hj hne (some y) (hl y hy)

section
variable {A B : List Nat} (update : Nat → Option Nat) (hl : Relinks runs st s)
  (hi : i ≤ skipMaxLevel)
include update hl hi

private theorem skipLink_spec (hli : Linked (s.forward i) (A++B))
    (hno : ∀ y∈A++B, IsNode runs (some y)) (hx : IsNode runs (some x)) (hnew : x∉A++B)
    (hu : update i=A.getLast?) : ∃ s', skipLink x update i s = .ok s' ∧ LinksLevel runs i s s' ∧
      Linked (s'.forward i) (A++x::B) := by
  have hla := isNode_getLast? fun y hy => hno y (mem_append_left B hy)
  have hx0 : some x≠some 0 := by
    obtain ⟨n,hx⟩ := hx
    intro h0
    exact hruns.base_pos hx (Option.some.inj h0)
  have hxl : some x≠A.getLast? := by
    intro heq
    exact hnew (mem_append_left B (mem_of_getLast? heq.symm))
  have hn := hli.next_last
  have hn0 : s.forward i A.getLast? ≠ some 0 := by
    rw [hn]
    intro h0
    obtain ⟨n,hr⟩ := hno 0 (mem_append_right A (mem_of_mem_head? h0))
    exact hruns.base_pos hr rfl
  have hf1 : ∀ j ≤ skipMaxLevel, ∀ q, IsNode runs q → _ := fun j hj q hq =>
    hruns.forward_setForward s hi hj hx hq hn0
  have hl1 := hruns.relinks_setForward s hi hx (s.forward i A.getLast?)
  generalize hs1 : s.setForward i (some x) (s.forward i A.getLast?)=s1 at hf1 hl1
  have hf2 : ∀ j ≤ skipMaxLevel, ∀ q, IsNode runs q → _ := fun j hj q hq =>
    hruns.forward_setForward s1 hi hj hla hq hx0
  have hl2 := hruns.relinks_setForward s1 hi hla (some x)
  have hlv : (s1.setForward i A.getLast? (some x)).level=s.level := by
    rw [Heap.setForward_level,← hs1,Heap.setForward_level]
  refine ⟨s1.setForward i A.getLast? (some x),?_,⟨hl1.trans hl2,hlv,?_⟩,?_⟩
  · have hnex : s1.forward i (some x)=B.head? := by
      rw [hf1 i hi _ hx,if_pos ⟨rfl,rfl⟩,hn]
    simp only [skipLink,hu,hs1,hnex]
    cases hB : B.head? with
    | none => rfl
    | some y =>
      obtain ⟨n,hy⟩ := hno y (mem_append_right A (mem_of_mem_head? hB))
      have hok := (hl.trans hl1).bigSizeOk hruns hy
      simp only [assert,hok,if_true]
      rfl
  · intro j hj hne q hq
    rw [hf2 j hj q hq,if_neg (fun hc => hne hc.1),hf1 j hj q hq,if_neg (fun hc => hne hc.1)]
  · apply hli.insert
    · rw [hf2 i hi _ hla,if_pos ⟨rfl,rfl⟩]
    · rw [hf2 i hi _ hx,if_neg (fun hc => hxl hc.2),hf1 i hi _ hx,if_pos ⟨rfl,rfl⟩]
    · rintro q hq hql
      have hqn : IsNode runs q := by
        rcases hq with rfl | ⟨y,hy,rfl⟩
        · trivial
        · exact hno y hy
      have hqx : q≠some x := by
        rintro rfl
        rcases hq with hq | ⟨y,hy,hxy⟩
        · cases hq
        · cases hxy
          exact hnew hy
      rw [hf2 i hi q hqn,if_neg (fun hc => hql hc.2),hf1 i hi q hqn,if_neg (fun hc => hqx hc.2)]

private theorem skipUnlink_spec (hli : Linked (s.forward i) (A++x::B))
    (hno : ∀ y∈A++x::B, IsNode runs (some y)) (hu : update i=A.getLast?) :
    ∃ s', skipUnlink x update i s = .ok (true, s') ∧ LinksLevel runs i s s' ∧
      Linked (s'.forward i) (A++B) := by
  have hla := isNode_getLast? fun y hy => hno y (mem_append_left _ hy)
  have hx := hli.last.1
  have hn := hli.next_mem
  have hnb : ∀ y, B.head? = some y → IsNode runs (some y) := fun y hy =>
    hno y (mem_append_right A (mem_cons_of_mem x (mem_of_mem_head? hy)))
  have hn0 : s.forward i (some x)≠some 0 := by
    rw [hn]
    intro h0
    obtain ⟨n,hr⟩ := hnb 0 h0
    exact hruns.base_pos hr rfl
  have hf : ∀ j ≤ skipMaxLevel, ∀ q, IsNode runs q → _ := fun j hj q hq =>
    hruns.forward_setForward s hi hj hla hq hn0
  have hl' := hruns.relinks_setForward s hi hla (s.forward i (some x))
  have hlv : (s.setForward i A.getLast? (s.forward i (some x))).level=s.level :=
    Heap.setForward_level s
  generalize hs' : s.setForward i A.getLast? (s.forward i (some x))=s' at hf hl' hlv
  refine ⟨s',?_,⟨hl',hlv,?_⟩,?_⟩
  · have hnew : s'.forward i A.getLast? = B.head? := by
      rw [hf i hi _ hla,if_pos ⟨rfl,rfl⟩,hn]
    simp only [skipUnlink,hu,hx,ne_eq,hs',hnew]
    cases hB : B.head? with
    | none => rfl
    | some y =>
      obtain ⟨n,hy⟩ := hnb y hB
      have hok := (hl.trans hl').bigSizeOk hruns hy
      have ha := hruns.aligned _ hy
      simp only [hok,ha]
      rfl
  · intro j hj hne q hq
    rw [hf j hj q hq,if_neg (fun hc => hne hc.1)]
  · apply hli.remove
    · rw [hf i hi _ hla,if_pos ⟨rfl,rfl⟩]
    · rintro q hq hql
      have hqn : IsNode runs q := by
        rcases hq with rfl | ⟨y,hy,rfl⟩
        · trivial
        rcases mem_append.1 hy with hy | hy
        · exact hno y (mem_append_left _ hy)
        · exact hno y (mem_append_right _ (mem_cons_of_mem x hy))
      rw [hf i hi q hqn,if_neg (fun hc => hql hc.2)]

end

end Links

section Insert
theorem Runs.bigSize_eq (hruns : Runs st runs) (hx : ⟨x,.big n⟩∈runs) :
    st.mem (sizeAt x) + bigHeader=n*pageSize ∧ 0<n := by
  have hs : st.mem (sizeAt x)=n*pageSize-bigHeader := hruns.size _ hx
  have hn : 0<n := hruns.valid _ hx
  rw [hs]
  unfold pageSize bigHeader
  omega

theorem assertHeadInside_big (hruns : Runs st runs) (hx : ⟨x,.big n⟩∈runs)
    (hh : st.mem (headAt x)=x+bigHeader) : assertHeadInside x st = .ok () := by
  obtain ⟨hs,hn⟩ := hruns.bigSize_eq hx
  have h1 : st.mem (headAt x)≠0 := by
    rw [hh]
    unfold bigHeader
    omega
  have h2 : st.mem (headAt x) > x := by
    rw [hh]
    unfold bigHeader
    omega
  have h3 : st.mem (sizeAt x) > numBins := by
    unfold pageSize bigHeader at hs
    unfold numBins
    omega
  have h4 : st.mem (headAt x)<x + st.mem (sizeAt x) := by
    unfold pageSize bigHeader at *
    omega
  simp only [assertHeadInside,ne_eq,h1,h2,h3,h4]
  rfl

variable (hruns : Runs st runs) (hfree : FreeRuns st runs levels)
include hruns hfree

omit hruns in
theorem FreeRuns.isNode (hy : y∈levels i) : IsNode runs (some y) :=
  hfree.big y ((hfree.sorted.sub_zero i).subset hy)

theorem FreeRuns.insert {top : Nat} (hx : ⟨x,.big n⟩∈runs) (hne : x∉levels 0)
    (hh : st.mem (headAt x)=x+bigHeader) (ht : top ≤ skipMaxLevel) :
    ∃ st', klmallocSkipListInsert top x st = .ok st' ∧ Relinks runs st st' ∧
      FreeRuns st' runs (insertAt (bigSize st) x (top+1) levels) := by
  have hno : ∀ i, x∉levels i := fun i hi => hne ((hfree.sorted.sub_zero i).subset hi)
  have hxn : IsNode runs (some x) := ⟨n,hx⟩
  obtain ⟨update,hse,hu⟩ := hfree.search hruns
  have hn : st.forward 0 (below (bigSize st) (bigSize st x) (levels 0)).getLast? ≠ some x := by
    rw [hfree.forward_last _ (Nat.zero_le _)]
    intro hf
    exact hne (mem_notBelow.1 (mem_of_mem_head? hf)).1
  have hin := assertHeadInside_big hruns hx hh
  have hok := hruns.bigSizeOk hx
  have ha := hruns.aligned _ hx
  have hsi : st.mem (sizeAt x)≠0 := by
    have := hruns.bigSize_eq hx
    unfold pageSize bigHeader at this
    omega
  generalize hs0 : { st with level := max st.level top }=s0
  have hlo : Yields (fun _ => False) (fun s => Relinks runs st s ∧ s.level=max st.level top ∧
      ∀ j ≤ skipMaxLevel, Linked (s.forward j) (insertAt (bigSize st) x (top+1) levels j))
      (forRange (skipLink x fun i => if st.level < i then none else update i) (top+1) s0) := by
    rw [hu]
    apply forRange_yields fun m s => Relinks runs st s ∧ s.level=max st.level top ∧
      ∀ j ≤ skipMaxLevel, Linked (s.forward j) (insertAt (bigSize st) x m levels j)
    · rw [← hs0]
      exact ⟨⟨fun _ _ => rfl,rfl,rfl,rfl⟩,rfl,hfree.linked⟩
    rintro i s hi ⟨hli,hlv,hl⟩
    have hi6 : i ≤ skipMaxLevel := by omega
    have hlin := hl i hi6
    rw [insertAt,if_neg (Nat.lt_irrefl i),← hfree.sorted.append_eq] at hlin
    have hsp := hfree.sorted.append_eq (bigSize st x) i
    obtain ⟨s',hr,hle,hl'⟩ := skipLink_spec hruns
      (fun i => (below (bigSize st) (bigSize st x) _).getLast?) hli hi6 hlin
      (fun y hy => hfree.isNode (by rwa [hsp] at hy)) hxn (by rw [hsp]; exact hno i)
      rfl
    rw [hr]
    refine .ok ⟨hli.trans hle.relinks,hle.level.trans hlv,?_⟩
    intro j hj
    by_cases hji : j=i
    · subst hji
      rw [insertAt,if_pos (Nat.lt_succ_self j)]
      exact hl'
    have hsa : insertAt (bigSize st) x (i+1) levels j=insertAt (bigSize st) x i levels j := by
      unfold insertAt
      by_cases hlt : j < i
      · rw [if_pos hlt,if_pos (by omega)]
      · rw [if_neg hlt,if_neg (by omega)]
    rw [hsa]
    apply hle.linked hj hji _ (hl j hj)
    intro y hy
    rcases mem_insertAt.1 hy with ⟨-,rfl⟩ | hy
    · exact hxn
    · exact hfree.isNode hy
  obtain ⟨st',hru,hli,hlv,hl⟩ := hlo.exists_ok
  refine ⟨st',?_,hli,?_⟩
  · have hse : skipSearch (st.mem (sizeAt x)) st (st.level+1) none (fun _ => none)=_ := hse
    simp [klmallocSkipListInsert,assert,hruns.base_pos hx,hin, ha,hok,hsi,hse,hn,hs0,hru]
  apply FreeRuns.of_links hruns hli hl (hfree.sorted.insert x (top+1))
  · intro y hy
    rcases mem_insertAt.1 hy with ⟨-,rfl⟩ | hy
    · exact hxn
    · exact hfree.big y hy
  · have := hfree.top
    omega
  · intro i hi
    rw [insertAt,if_neg (by omega),hfree.empty i (by omega)]
end Insert

private theorem skipLower_spec (st : Heap) (n : Nat) :
    skipLower st n≤n ∧ ∀ i, skipLower st n < i → i≤n → st.forward i none=none := by
  induction n with
  | zero =>
    refine ⟨Nat.le_refl 0,?_⟩
    omega
  | succ n ih =>
    unfold skipLower
    split
    · rename_i hn
      refine ⟨by omega,?_⟩
      intro i hi hin
      by_cases hl : i=n+1
      · rw [hl,hn]
      · exact ih.2 i hi (by omega)
    · refine ⟨Nat.le_refl _,?_⟩
      omega

structure Unlinked (runs : List Run) (st : Heap) (levels : Nat → List Nat) (x m : Nat)
    (s : Heap) : Prop where
  relinks : Relinks runs st s
  level : s.level=st.level
  linked : ∀ j ≤ skipMaxLevel,
    Linked (s.forward j) (if j < m then eraseFrom x levels j else levels j)

section Delete
variable (hruns : Runs st runs) (hfree : FreeRuns st runs levels)

private theorem eraseFrom_of_not_mem (hx : x∉levels i) : eraseFrom x levels i=levels i := by
  apply filter_eq_self.2
  intro y hy
  have hyx : y≠x := fun hyx => hx (hyx ▸ hy)
  simpa using hyx

private theorem Unlinked.finish (hs : Unlinked runs st levels x m s)
    (hm : ∀ j ≤ skipMaxLevel, m≤j → x∉levels j) :
    Unlinked runs st levels x (skipMaxLevel+1) s := by
  refine ⟨hs.relinks,hs.level,?_⟩
  intro j hj
  have hl := hs.linked j hj
  rw [if_pos (by omega)]
  split at hl
  · exact hl
  · rwa [eraseFrom_of_not_mem (hm j hj (by omega))]

include hruns hfree

private theorem Unlinked.unlink (hs : Unlinked runs st levels x i s)
    (hf : notBelow (bigSize st) k (levels 0)=x::R) (hi : i ≤ skipMaxLevel)
    (hx : x∈levels i)
    (hu : update i=(below (bigSize st) (bigSize st x) (levels i)).getLast?) :
    ∃ s', skipUnlink x update i s = .ok (true, s') ∧ Unlinked runs st levels x (i+1) s' := by
  have hnd := (hfree.linked 0 (Nat.zero_le _)).nodup
  obtain ⟨R',hli,he⟩ := hfree.sorted.first hnd hf hx
  have hl := hs.linked i hi
  rw [if_neg (Nat.lt_irrefl i),hli] at hl
  have hn : ∀ y∈below (bigSize st) (bigSize st x) (levels i)++x::R',
      IsNode runs (some y) := by
    rw [← hli]
    exact fun y hy => hfree.isNode hy
  obtain ⟨s',hr,hlv,hl'⟩ := skipUnlink_spec hruns update hs.relinks hi hl hn hu
  refine ⟨s',hr,hs.relinks.trans hlv.relinks,hlv.level.trans hs.level,?_⟩
  intro j hj
  by_cases hji : j=i
  · subst hji
    rw [if_pos (Nat.lt_succ_self j),he]
    exact hl'
  have hsa : (if j < i+1 then eraseFrom x levels j else levels j) =
      if j < i then eraseFrom x levels j else levels j := by
    by_cases hlt : j < i
    · rw [if_pos hlt,if_pos (by omega)]
    · rw [if_neg hlt,if_neg (by omega)]
  rw [hsa]
  apply hlv.linked hj hji _ (hs.linked j hj)
  intro y hy
  split at hy
  · exact hfree.isNode (mem_filter.1 hy).1
  · exact hfree.isNode hy

omit hruns in
private theorem Unlinked.leave (hs : Unlinked runs st levels x i s) (hi : i ≤ skipMaxLevel)
    (hx : x∉levels i)
    (hu : update i=(below (bigSize st) (bigSize st x) (levels i)).getLast?) :
    skipUnlink x update i s = .ok (false, s) := by
  have hli := hs.linked i hi
  rw [if_neg (Nat.lt_irrefl i),← hfree.sorted.append_eq (bigSize st x) i] at hli
  have hl := hli.last
  have hne : s.forward i (update i)≠some x := by
    rw [hu]
    cases hr : notBelow (bigSize st) (bigSize st x) (levels i) with
    | nil =>
      rw [hr] at hl
      have hn : s.forward i _=none := hl
      rw [hn]
      intro hn
      cases hn
    | cons y B =>
      rw [hr] at hl
      rw [hl.1]
      rintro ⟨⟩
      have hmem := hr ▸ mem_cons_self
      exact hx (mem_notBelow.1 hmem).1
  rw [skipUnlink,if_pos hne]

private theorem FreeRuns.unlink (hf : notBelow (bigSize st) k (levels 0)=x::R) (hu : ∀ i ≤ st.level,
      update i=(below (bigSize st) (bigSize st x) (levels i)).getLast?) :
    ∃ r, forRangeWhile (skipUnlink x update) (st.level+1) st = .ok r ∧
      Unlinked runs st levels x (skipMaxLevel+1) r.2 := by
  have ht := hfree.top
  have hl : Yields (fun _ => False) (fun r =>
      if r.1 then Unlinked runs st levels x (st.level+1) r.2
      else Unlinked runs st levels x (skipMaxLevel+1) r.2)
      (forRangeWhile (skipUnlink x update) (st.level+1) st) := by
    apply forRangeWhile_yields _
    · exact ⟨.refl,rfl,hfree.linked⟩
    intro i s hi hs
    by_cases hx : x∈levels i
    · obtain ⟨s',hr,hs'⟩ := hs.unlink hruns hfree hf (by omega) hx (hu i (by omega))
      rw [hr]
      exact .ok hs'
    · rw [hs.leave hfree (by omega) hx (hu i (by omega))]
      refine .ok (hs.finish ?_)
      intro j _ hij hxj
      exact hx ((hfree.sorted.sub_of_le hij).subset hxj)
  obtain ⟨⟨go,s⟩,hru,hp⟩ := hl.exists_ok
  refine ⟨(go, s),hru,?_⟩
  cases go with
  | false => exact hp
  | true =>
    refine Unlinked.finish hp ?_
    intro j _ hj hxj
    rw [hfree.empty j (by omega)] at hxj
    cases hxj

theorem FreeRuns.delete (hf : notBelow (bigSize st) k (levels 0)=x::R)
    (hh : st.mem (headAt x)=x+bigHeader) :
    ∃ st', klmallocSkipListDelete x st = .ok st' ∧ Relinks runs st st' ∧
      FreeRuns st' runs (eraseFrom x levels) := by
  have hnd := (hfree.linked 0 (Nat.zero_le _)).nodup
  have hmem : x∈levels 0 := by
    have hx := hf ▸ mem_cons_self
    exact (mem_notBelow.1 hx).1
  obtain ⟨n,hx⟩ := hfree.big x hmem
  obtain ⟨update,hse,hu⟩ := hfree.search hruns
  have hu : ∀ i ≤ st.level, update i=(below (bigSize st) (bigSize st x) (levels i)).getLast? := by
    intro i hi
    have := congrFun hu i
    rwa [if_neg (by omega)] at this
  have hn : st.forward 0 (below (bigSize st) (bigSize st x) (levels 0)).getLast? = some x := by
    obtain ⟨R',hli,-⟩ := hfree.sorted.first hnd hf hmem
    have hl := hfree.linked 0 (Nat.zero_le _)
    rw [hli] at hl
    exact hl.last.1
  obtain ⟨⟨go,s⟩,hlo,hs⟩ := hfree.unlink hruns hf hu
  have hlv : s.level=st.level := hs.level
  have ht := hfree.top
  have hlow := skipLower_spec s s.level
  refine ⟨{ s with level := skipLower s s.level },?_,?_,?_⟩
  · have hse : skipSearch (st.mem (sizeAt x)) st (st.level+1) none (fun _ => none)=_ := hse
    have hfu : st.fuel=st.regions.length+1 := rfl
    simp only [klmallocSkipListDelete,ne_eq,hruns.base_pos hx,
      assertHeadInside_big hruns hx hh,ok_bind,hse,hn,hfu,skipFind,hlo]
    rfl
  · exact ⟨hs.relinks.touches,hs.relinks.binHead,hs.relinks.newestBig,hs.relinks.regions⟩
  apply FreeRuns.of_links hruns
  · exact ⟨hs.relinks.touches,hs.relinks.binHead,hs.relinks.newestBig,hs.relinks.regions⟩
  · intro j hj
    have := hs.linked j hj
    rwa [if_pos (by omega)] at this
  · exact hfree.sorted.erase x
  · intro y hy
    exact hfree.big y (mem_filter.1 hy).1
  · change skipLower s s.level ≤ skipMaxLevel
    omega
  intro i hi
  by_cases hi' : i ≤ s.level
  · have hno := hlow.2 i hi hi'
    have hl := hs.linked i (by omega)
    rw [if_pos (by omega)] at hl
    cases hli : eraseFrom x levels i with
    | nil => rfl
    | cons y l =>
      rw [hli] at hl
      have := hl.1
      rw [hno] at this
      cases this
  · rw [eraseFrom,hfree.empty i (by omega)]
    rfl
end Delete
end RazionOS.Kernel.Malloc
