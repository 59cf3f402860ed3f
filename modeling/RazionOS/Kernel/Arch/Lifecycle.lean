import RazionOS.Kernel.Arch.SharedPages

/-! # Address spaces come and go -/

namespace RazionOS.Kernel
open Framework Function List

def Under (root : Nat) (q : List Nat) : Set Place :=
  {x | match x with
    | .table r p => r=root ∧ q <:+ p
    | .page r p l => r=root ∧ q <:+ l::p
    | .held _ => False}

def Done (root : Nat) (p : List Nat) (n : Nat) : Set Place :=
  {x | ∃ i<n, x∈Under root (i::p)}

theorem mem_under_cons (hx : x∈Under root (i::p)) : x∈Under root p := by
  cases x with
  | table r q => exact ⟨hx.1,(suffix_cons i p).trans hx.2⟩
  | page r q l => exact ⟨hx.1,(suffix_cons i p).trans hx.2⟩
  | held f => exact hx

theorem under_cons_inj (hi : x∈Under root (i::p)) (hj : x∈Under root (j::p)) : i=j := by
  have hs : ∀ q : List Nat, (i::p) <:+ q → (j::p) <:+ q → i=j := by
    intro q h1 h2
    have hsu := suffix_of_suffix_length_le h1 h2 (by simp)
    have heq := hsu.eq_of_length (by simp)
    exact (cons.inj heq).1
  cases x with
  | table r q => exact hs q hi.2 hj.2
  | page r q l => exact hs _ hi.2 hj.2
  | held f => exact hi.elim

theorem under_cases (hx : view roots held s x=some m) (hu : x∈Under root q) (hq : TablePath q) :
    x = .table root q ∨ x∈Done root q (fanout q) := by
  cases x with
  | held f => exact hu.elim
  | table r p =>
    obtain ⟨rfl,hs⟩ := hu
    by_cases hpq : p=q
    · exact .inl (by rw [hpq])
    obtain ⟨j,hj⟩ := exists_cons_suffix hs hpq
    have hp : TablePath p := by
      by_contra hp
      simp [view,hp] at hx
    exact .inr ⟨j,(hp.of_suffix hj).2.2,rfl,hj⟩
  | page r p l =>
    obtain ⟨rfl,hs⟩ := hu
    have hp : PagePath p l := by
      by_contra hp
      simp [view,hp] at hx
    have hne : l::p≠q := by
      rintro rfl
      have := hq.length_le
      have := hp.2.1
      simp_all
    obtain ⟨j,hj⟩ := exists_cons_suffix hs hne
    refine .inr ⟨j,?_,rfl,hj⟩
    rcases suffix_cons_iff.1 hj with heq | hj
    · cases heq
      rw [fanout_of_ne_nil hp.ne_nil]
      exact hp.2.2
    · exact (hp.1.of_suffix hj).2.2

private theorem under_page (hx : view roots held s x=some m) (hu : x∈Under root (l::p))
    (hp : PagePath p l) : x = .page root p l := by
  cases x with
  | held f => exact hu.elim
  | table r q =>
    have hq : TablePath q := by
      by_contra hq
      simp [view,hq] at hx
    exact absurd hu.2 (hp.not_suffix hq)
  | page r q l' =>
    obtain ⟨rfl,hs⟩ := hu
    have hq : PagePath q l' := by
      by_contra hq
      simp [view,hq] at hx
    rcases suffix_cons_iff.1 hs with heq | hs
    · cases heq
      rfl
    · exact absurd hs (hp.not_suffix hq.1)

private theorem view_under_none (hq : TablePath q) (hw : walk s.mem root q=none)
    (hu : x∈Under root q) :
    view roots held s x=none := by
  cases x with
  | held f => exact hu.elim
  | table r p =>
    obtain ⟨rfl,hs⟩ := hu
    simp [view,walk_eq_none_of_suffix hw hs]
  | page r p l =>
    obtain ⟨rfl,hs⟩ := hu
    by_cases hp : PagePath p l
    · have hsu : q <:+ p := by
        rcases suffix_cons_iff.1 hs with rfl | hs
        · exact absurd suffix_rfl (hp.not_suffix hq)
        · exact hs
      simp [view,walk_eq_none_of_suffix hw hsu]
    · simp [view,hp]
/-- The teardown of what is mapped at the places `D`, with memory as in `s0`. -/
structure Freed (roots : List Nat) (h : Held) (F : Set Nat) (s0 : MMU) (D : Set Place) (s : MMU) :
    Prop where
  mem : s.mem=s0.mem
  nframes : s.nframes=s0.nframes
  sharing : Sharing (without (view roots h.frames s0) D) s.refs s.Used
  tight : Tight F (without (view roots h.frames s0) D) s.Used

theorem Freed.congr (hf : Freed roots h F s0 D s)
    (hDE : ∀ x m, view roots h.frames s0 x=some m → (x∈D ↔ x∈E)) :
    Freed roots h F s0 E s := by
  have hm := without_congr hDE
  exact ⟨hf.mem,hf.nframes,hm ▸ hf.sharing,hm ▸ hf.tight⟩

theorem Freed.frameClear (hf : Freed roots h F s0 D s) (hr : r∈roots) (hq : TablePath q)
    (hu : walk s0.mem r q=some u) (hD : Place.table r q∉D) :
    Freed roots h F s0 (insert (.table r q) D) (mmuFrameClear (u*pageSize) s) := by
  have hv : without (view roots h.frames s0) D (.table r q)=some (.sole u) := by
    rw [without,if_neg hD,view_table hr hq hu]
  have hre := hf.sharing.writable _ _ hv rfl
  have hus := mmuFrameClear_used s u
  refine ⟨by rw [mmuFrameClear_mem,hf.mem],by rw [mmuFrameClear_nframes,hf.nframes],?_,?_⟩
  · rw [without_insert,mmuFrameClear_refs]
    exact hf.sharing.unmap_sole hv hre hus
  · rw [without_insert]
    exact Sharing.unmap_sole_tight hf.tight hv hus

theorem mem_done_succ : x∈D ∪ Done root p (n+1) ↔ x∈D ∪ Done root p n ∨ x∈Under root (n::p) := by
  constructor
  · rintro (hx | ⟨i,hi,hx⟩)
    · exact .inl (.inl hx)
    · by_cases hin : i=n
      · exact .inr (hin ▸ hx)
      · exact .inl (.inr ⟨i,by omega,hx⟩)
  · rintro ((hx | ⟨i,hi,hx⟩) | hx)
    · exact .inl hx
    · exact .inr ⟨i,by omega,hx⟩
    · exact .inr ⟨n,by omega,hx⟩

theorem not_mem_done (hD : ∀ x∈Under root p, x∉D) (hx : x∈Under root (n::p)) :
    x∉D ∪ Done root p n := by
  rintro (hx' | ⟨i,hi,hx'⟩)
  · exact hD x (mem_under_cons hx) hx'
  · exact absurd (under_cons_inj hx' hx) (by omega)

private theorem freePages_spec (hr : root∈roots) (hp : TablePath [k, j, i])
    (hw : walk s0.mem root [k, j, i]=some pt) (hD : ∀ x∈Under root [k, j, i], x∉D)
    (hf : Freed roots h F s0 D s) (hok : freePages i j k pt s = .ok s') :
    Freed roots h F s0 (D ∪ Done root [k, j, i] 512) s' := by
  refine forRange_invariant (fun l s => Freed roots h F s0 (D ∪ Done root [k, j, i] l) s)
    (hf.congr ?_) ?_ hok
  · simp [Done]
  intro l s1 s2 hl hf1 hro
  have hpl : PagePath [k, j, i] l := ⟨hp,rfl,hl⟩
  have ha : pathAddress [k, j, i] l=addressOf i j k l := rfl
  have hmem : s1.mem pt l=s0.mem pt l := by rw [hf1.mem]
  -- with no private page here, there is nothing to give up
  have hsk : view roots h.frames s0 (.page root [k, j, i] l)=none →
      Freed roots h F s0 (D ∪ Done root [k, j, i] (l+1)) s1 := by
    intro hn
    apply hf1.congr
    intro x m hx
    rw [mem_done_succ]
    constructor
    · exact .inl
    rintro (hx' | hx')
    · exact hx'
    · rw [under_page hx hx' hpl,hn] at hx
      cases hx
  split at hro
  · rename_i hs
    cases hro
    exact hsk (by simp [view,ha,hs])
  rename_i hs
  have hv : view roots h.frames s0 (.page root [k, j, i] l)=leafMapping (s1.mem pt l) := by
    rw [hmem]
    exact view_page hr hpl hs hw
  split at hro
  swap
  · rename_i hpr
    cases hro
    exact hsk (by rw [hv]; simp [leafMapping,hpr])
  rename_i hpr
  split at hro
  swap
  · rename_i hu
    cases hro
    exact hsk (by rw [hv]; simp [leafMapping,hu])
  rename_i hu
  rw [leafMapping_of_user hpr hu] at hv
  have hin : Place.page root [k, j, i] l∈Under root [l, k, j, i] := ⟨rfl,suffix_rfl⟩
  have hm : without (view roots h.frames s0) (D ∪ Done root [k, j, i] l)
      (.page root [k, j, i] l)=view roots h.frames s0 (.page root [k, j, i] l) := by
    rw [without,if_neg (not_mem_done hD hin)]
  obtain ⟨hmem2,hnf2,hsh2,ht2⟩ := freePageMaybe_spec hf1.sharing hf1.tight (hm.trans hv) hro
  rw [← without_insert] at hsh2 ht2
  have hf2 : Freed roots h F s0 (insert (.page root [k, j, i] l) (D ∪ Done root [k, j, i] l)) s2 :=
    ⟨hmem2.trans hf1.mem,hnf2.trans hf1.nframes,hsh2,ht2⟩
  apply hf2.congr
  intro x m hx
  rw [mem_done_succ,Set.mem_insert_iff,or_comm]
  constructor
  · rintro (hx' | rfl)
    · exact .inl hx'
    · exact .inr hin
  · rintro (hx' | hx')
    · exact .inl hx'
    · exact .inr (under_page hx hx' hpl)

private theorem freeTables_spec (inv : AddressSpaces roots h s0) (hr : root∈roots)
    (hp : TablePath p) (hlen : p.length<3) (hw : walk s0.mem root p=some t)
    (hin : ∀ i u s s' D, TablePath (i::p) → walk s0.mem root (i::p)=some u →
      (∀ x∈Under root (i::p), x∉D) → Freed roots h F s0 D s → visit i u s = .ok s' →
        Freed roots h F s0 (D ∪ Done root (i::p) 512) s') (hD : ∀ x∈Under root p, x∉D)
    (hf : Freed roots h F s0 D s) (hok : freeTables (fanout p) visit t s = .ok s') :
    Freed roots h F s0 (D ∪ Done root p (fanout p)) s' := by
  refine forRange_invariant (fun i s => Freed roots h F s0 (D ∪ Done root p i) s)
    (hf.congr ?_) ?_ hok
  · simp [Done]
  intro i s1 s2 hi hf1 hro
  have hip : TablePath (i::p) := ⟨hp,hlen,hi⟩
  rw [hf1.mem] at hro
  split at hro
  · rename_i hpr
    have hu : walk s0.mem root (i::p)=some (s0.mem t i).frame := by
      rw [walk_cons hw,if_pos hpr]
    obtain ⟨s3,hs3,hc⟩ := bind_eq_ok.1 hro
    obtain rfl := Except.ok.inj hc
    have hf3 := hin i _ s1 s3 _ hip hu (fun x => not_mem_done hD) hf1 hs3
    rw [hf3.mem,← inv.frame_eq_page hr hip hw hpr]
    have ht : Place.table root (i::p)∈Under root (i::p) := ⟨rfl,suffix_rfl⟩
    have hno : Place.table root (i::p)∉D ∪ Done root p i ∪ Done root (i::p) 512 := by
      rintro (hx | ⟨j,-,hx⟩)
      · exact not_mem_done hD ht hx
      · have := hx.2.length_le
        simp at this
    apply (hf3.frameClear hr hip hu hno).congr
    intro x m hx
    rw [mem_done_succ]
    constructor
    · rintro (rfl | hx' | ⟨j,-,hx'⟩)
      · exact .inr ht
      · exact .inl hx'
      · exact .inr (mem_under_cons hx')
    · rintro (hx' | hx')
      · exact .inr (.inl hx')
      · rcases under_cases hx hx' hip with rfl | hd
        · exact .inl rfl
        · exact .inr (.inr hd)
  · rename_i hpr
    cases hro
    have hn : walk s0.mem root (i::p)=none := by
      rw [walk_cons hw,if_neg hpr]
    apply hf1.congr
    intro x m hx
    rw [mem_done_succ]
    constructor
    · exact .inl
    rintro (hx' | hx')
    · exact hx'
    · rw [view_under_none hip hn hx'] at hx
      cases hx

private theorem view_remove_root (roots held : List Nat) (root : Nat) (hmem : s'.mem=s.mem)
    (hn : s'.nframes=s.nframes) :
    without (view roots held s) (insert (.table root []) (∅ ∪ Done root [] (fanout []))) =
      view (roots.filter (· ≠ root)) held s' := by
  funext x
  by_cases hx : x∈Under root []
  · have hg : view (roots.filter (· ≠ root)) held s' x=none := by
      cases x with
      | held f => exact hx.elim
      | table r p => simp [view,hx.1]
      | page r p l => simp [view,hx.1]
    rw [hg]
    cases hm : view roots held s x with
    | none => simp [without,hm]
    | some m =>
      rw [without,if_pos]
      rcases under_cases hm hx trivial with rfl | hd
      · exact Set.mem_insert _ _
      · exact Set.mem_insert_of_mem _ (.inr hd)
  · rw [without,if_neg]
    · cases x with
      | held f => simp [view,hn]
      | table r p =>
        have hne : r≠root := fun hr => hx ⟨hr,nil_suffix⟩
        simp [view,hmem,hne]
      | page r p l =>
        have hne : r≠root := fun hr => hx ⟨hr,nil_suffix⟩
        simp [view,hmem,hne]
    · rintro (rfl | hx' | ⟨i,-,hx'⟩)
      · exact hx ⟨rfl,nil_suffix⟩
      · exact hx'
      · exact hx (mem_under_cons hx')

theorem mmuFree_spec (inv : AddressSpaces roots h s) (ht : Tight F (view roots h.frames s) s.Used)
    (hr : root∈roots) (hok : mmuFree root s = .ok s') :
    AddressSpaces (roots.filter (· ≠ root)) h s' ∧ s'.mem=s.mem ∧
      Tight F (view (roots.filter (· ≠ root)) h.frames s') s'.Used := by
  have hst : Freed roots h F s ∅ s := by
    have hm : without (view roots h.frames s) ∅ = view roots h.frames s := by
      funext x
      simp [without]
    refine ⟨rfl,rfl,?_,?_⟩ <;> rw [hm]
    · exact inv.sharing
    · exact ht
  obtain ⟨s1,hs1,hc⟩ := bind_eq_ok.1 hok
  obtain rfl := Except.ok.inj hc
  have hro : walk s.mem root []=some root := rfl
  have hpa : TablePath [] := trivial
  have hf1 : Freed roots h F s (∅ ∪ Done root [] (fanout [])) s1 := by
    apply freeTables_spec inv hr hpa (by simp) hro _ (by simp) hst hs1
    intro i pdp s2 s3 D hp1 hw1 hD1 hf2 hok2
    apply freeTables_spec inv hr hp1 (by simp) hw1 _ hD1 hf2 hok2
    intro j pd s4 s5 D' hp2 hw2 hD2 hf4 hok4
    apply freeTables_spec inv hr hp2 (by simp) hw2 _ hD2 hf4 hok4
    intro k pt s6 s7 D'' hp3 hw3 hD3 hf6 hok6
    exact freePages_spec hr hp3 hw3 hD3 hf6 hok6
  have hn : Place.table root [] ∉ ∅ ∪ Done root [] (fanout []) := by
    rintro (hx | ⟨i,-,hx⟩)
    · exact hx
    · have := hx.2.length_le
      simp at this
  have hf2 := hf1.frameClear hr hpa hro hn
  have hv := view_remove_root roots h.frames root hf2.mem hf2.nframes
  refine ⟨?_,hf2.mem,?_⟩
  · apply inv.remove_root hf2.mem
    rw [← hv]
    exact hf2.sharing
  · rw [← hv]
    exact hf2.tight
def Below (root : Nat) (p : List Nat) : Set Place := {x | ∃ i, x∈Under root (i::p)}
def OtherPage (root : Nat) (x : Place) : Prop := ∃ r p l, x = .page r p l ∧ r≠root

/-- The pages copied below `p` keep their frames, and all else is as before. -/
structure Copies (roots : List Nat) (h : Held) (root : Nat) (p : List Nat) (s s' : MMU) : Prop where
  inv : AddressSpaces roots h s'
  same : ∀ x, x∉Below root p → ¬ OtherPage root x → view roots h.frames s' x=view roots h.frames s x
  pages : ∀ r q l m, r≠root → view roots h.frames s (.page r q l)=some m →
    ∃ m', view roots h.frames s' (.page r q l)=some m' ∧ m'.frame=m.frame

def Vacant (roots : List Nat) (h : Held) (root : Nat) (p : List Nat) (n : Nat) (s : MMU) : Prop :=
  ∀ i, n ≤ i → ∀ x∈Under root (i::p), view roots h.frames s x=none

theorem Copies.refl (inv : AddressSpaces roots h s) : Copies roots h root p s s :=
  ⟨inv,fun _ _ _ => rfl,fun _ _ _ m _ hm => ⟨m,hm,rfl⟩⟩

theorem Copies.trans (h1 : Copies roots h root p s s') (h2 : Copies roots h root p s' s'') :
    Copies roots h root p s s'' := by
  refine ⟨h2.inv,?_,?_⟩
  · intro x hx hp
    rw [h2.same x hx hp,h1.same x hx hp]
  intro r q l m hr hm
  obtain ⟨m1,hm1,hf1⟩ := h1.pages r q l m hr hm
  obtain ⟨m2,hm2,hf2⟩ := h2.pages r q l m1 hr hm1
  exact ⟨m2,hm2,hf2.trans hf1⟩

private theorem Copies.of_cons (hc : Copies roots h root (i::p) s s') :
    Copies roots h root p s s' := by
  refine ⟨hc.inv,?_,hc.pages⟩
  intro x hx
  apply hc.same
  rintro ⟨j,hj⟩
  exact hx ⟨i,mem_under_cons hj⟩

private theorem NewTable.copies (hn : NewTable roots h root t i p new s s') :
    Copies roots h root p s s' := by
  refine ⟨hn.inv,?_,?_⟩
  · intro x hx _
    rw [hn.view,update_of_ne]
    rintro rfl
    exact hx ⟨i,rfl,suffix_rfl⟩
  · intro r q l m _ hm
    exact ⟨m,by rw [hn.view,update_of_ne (by simp),hm],rfl⟩

private theorem Copied.copies (hc : Copied roots h r root l p s s') (hr : r≠root) :
    Copies roots h root p s s' := by
  have ht : Place.page root p l∈Below root p := ⟨l,rfl,suffix_rfl⟩
  refine ⟨hc.inv,?_,?_⟩
  · intro x hx hp
    apply hc.other
    · rintro rfl
      exact hp ⟨r,p,l,rfl,hr⟩
    · rintro rfl
      exact hx ht
  · intro r' q l' m hr' hm
    by_cases hs : Place.page r' q l' = .page r p l
    · rw [hs] at hm ⊢
      exact hc.source m hm
    refine ⟨m,?_,rfl⟩
    rw [hc.other _ hs,hm]
    rintro htg
    cases htg
    exact hr' rfl

theorem Copies.walk_eq (hc : Copies roots h root p s s') (hr : r∈roots) (hq : TablePath q)
    (ho : Place.table r q∉Below root p) (hw : walk s.mem r q=some t) :
    walk s'.mem r q=some t := by
  apply walk_of_view
  rw [hc.same _ ho (by rintro ⟨_,_,_,⟨⟩,_⟩),view_table hr hq hw]

theorem not_below_of_root (hr : r≠root) : Place.table r q∉Below root p := by
  rintro ⟨i,hi⟩
  exact hr hi.1

theorem not_below_self : Place.table root p∉Below root p := by
  rintro ⟨i,hi⟩
  have := hi.2.length_le
  simp at this

theorem Vacant.mono (hv : Vacant roots h root p m s) (hmn : m≤n) : Vacant roots h root p n s :=
  fun i hi => hv i (hmn.trans hi)

theorem Vacant.succ (hv : Vacant roots h root p n s) (hs : ∀ i, n < i → ∀ x∈Under root (i::p),
      view roots h.frames s' x=view roots h.frames s x) : Vacant roots h root p (n+1) s' := by
  intro i hi x hx
  rw [hs i (by omega) x hx]
  exact hv i (by omega) x hx

private theorem not_otherPage (hx : x∈Under root (i::p)) : ¬ OtherPage root x := by
  rintro ⟨r,q,l,rfl,hr⟩
  exact hr hx.1

section
variable (inv : AddressSpaces roots h s) (hr : r ∈ roots)
include inv hr

private theorem clonePages_spec (hro : root∈roots) (hne : r≠root) (hp : TablePath [k, j, i])
    (hin : walk s.mem r [k, j, i]=some ptIn) (ho : walk s.mem root [k, j, i]=some ptOut)
    (hv : Vacant roots h root [k, j, i] 0 s) :
    Yields Fatal.Benign (Copies roots h root [k, j, i] s) (clonePages i j k ptIn ptOut s) := by
  refine Yields.mono (forRange_yields (fun l s1 => Copies roots h root [k, j, i] s s1 ∧
    Vacant roots h root [k, j, i] l s1) ⟨.refl inv,hv⟩ ?_) fun s1 h1 => h1.1
  intro l s1 hl hinv
  obtain ⟨hc,hv⟩ := hinv
  have hsk : Copies roots h root [k, j, i] s s1 ∧ Vacant roots h root [k, j, i] (l+1) s1 :=
    ⟨hc,hv.mono (by omega)⟩
  have ht : view roots h.frames s1 (.page root [k, j, i] l)=none := hv l le_rfl _ ⟨rfl,suffix_rfl⟩
  have hco : ∀ s2, Copied roots h r root l [k, j, i] s1 s2 →
      Copies roots h root [k, j, i] s s2 ∧ Vacant roots h root [k, j, i] (l+1) s2 := by
    intro s2 hco
    refine ⟨hc.trans (hco.copies hne),hv.succ ?_⟩
    intro i' hi' x hx
    apply hco.other
    · rintro rfl
      exact hne hx.1
    · rintro rfl
      have := under_cons_inj hx ⟨rfl,suffix_rfl⟩
      omega
  split
  · exact .ok hsk
  rename_i hs
  have pr : Pair roots s1 r root ptIn ptOut l [k, j, i] :=
    ⟨hr,hro,hne,⟨hp,rfl,hl⟩,hs,hc.walk_eq hr hp (not_below_of_root hne) hin,
      hc.walk_eq hro hp not_below_self ho⟩
  split
  swap
  · exact .ok hsk
  rename_i hpr
  split
  · rename_i hu
    have hf := copyPageMaybe_benign pr hc.inv hpr hu
    exact hf.and_ok fun s2 hok =>
      hco s2 (copyPageMaybe_spec pr hc.inv hpr hu ht hok)
  rename_i hu
  have hu : (s1.mem ptIn l).user=false := by simpa using hu
  -- not a user page: the entry is copied as it is, and maps nothing that is counted
  have hcow := hc.inv.plain r _ ptIn l hr pr.path pr.table hpr (.inl hu)
  generalize hs2 : s1.setEntry ptOut l (s1.mem ptIn l)=s2
  have he : s2.mem ptOut l=s1.mem ptIn l := by
    rw [← hs2,MMU.setEntry_mem]
    simp
  have hle : leafMapping (s2.mem ptOut l)=none := by
    simp [he,leafMapping,hu]
  have hmem : ∀ t i, t∉[] → t≠ptOut ∨ i≠l → s2.mem t i=s1.mem t i := by
    intro t i _ hsl
    rw [← hs2,MMU.setEntry_mem,if_neg (by omega)]
  have hse := hc.inv.set_page pr.target pr.path pr.priv pr.table' (by simp) hmem
    (by rw [← hs2]; rfl) (by simp [he,hcow]) (by
      rw [hle,← ht,update_eq_self,← hs2]
      exact hc.inv.sharing)
  exact .ok (hco s2 (.of_update pr hse.1 hse.2))

private theorem cloneTables_spec (hro : root∈roots) (hne : r≠root) (hp : TablePath p)
    (hlen : p.length<3) (hin : walk s.mem r p=some tableIn)
    (hou : walk s.mem root p=some tableOut)
    (hinn : ∀ i u v s, AddressSpaces roots h s → TablePath (i::p) →
      walk s.mem r (i::p)=some u → walk s.mem root (i::p)=some v →
      Vacant roots h root (i::p) 0 s →
        Yields Fatal.Benign (Copies roots h root (i::p) s) (visit i u v s))
    (hv : Vacant roots h root p 0 s) : Yields Fatal.Benign (Copies roots h root p s)
      (cloneTables (fanout p) visit tableIn tableOut s) := by
  refine Yields.mono (forRange_yields (fun i s1 => Copies roots h root p s s1 ∧
    Vacant roots h root p i s1) ⟨.refl inv,hv⟩ ?_) fun s1 h1 => h1.1
  intro i s1 hi hinv
  obtain ⟨hc,hv⟩ := hinv
  have hip : TablePath (i::p) := ⟨hp,hlen,hi⟩
  have hin1 := hc.walk_eq hr hp (not_below_of_root hne) hin
  have hou1 := hc.walk_eq hro hp not_below_self hou
  split
  swap
  · exact .ok ⟨hc,hv.mono (by omega)⟩
  rename_i hpr
  have hb : walk s1.mem r (i::p)=some (s1.mem tableIn i).frame := by
    rw [walk_cons hin1,if_pos hpr]
  have ha : walk s1.mem root (i::p)=none := by
    have hno := hv i le_rfl (.table root (i::p)) ⟨rfl,suffix_rfl⟩
    simpa [view,hro,hip] using hno
  have hnew := (newDirectory_benign tableOut i s1).and_ok fun x hok =>
    newDirectory_spec hc.inv hro hip hou1 ha hok
  refine hnew.bind ?_
  rintro ⟨new,s3⟩ hn
  have hnew3 : walk s3.mem root (i::p)=some new := by
    apply walk_of_view
    rw [hn.view,update_self]
  have ho : ∀ i', ∀ x∈Under root (i' :: p), x ≠ .table root (i::p) →
      view roots h.frames s3 x=view roots h.frames s1 x := by
    intro i' x _ hx
    rw [hn.view,update_of_ne hx]
  have hva : Vacant roots h root (i::p) 0 s3 := by
    intro j _ x hx
    have hup := mem_under_cons hx
    rw [ho i x hup,hv i le_rfl x hup]
    rintro rfl
    have := hx.2.length_le
    simp at this
  have hb3 := hn.copies.walk_eq hr hip (not_below_of_root hne) hb
  refine (hinn i _ _ s3 hn.inv hip hb3 hnew3 hva).mono fun s2 hc2 => ?_
  refine ⟨(hc.trans hn.copies).trans hc2.of_cons,hv.succ ?_⟩
  intro i' hi' x hx
  have hnot : ∀ y∈Under root (i::p), x≠y := by
    rintro y hy rfl
    have := under_cons_inj hx hy
    omega
  rw [hc2.same x _ (not_otherPage hx),ho i' x hx (hnot _ ⟨rfl,suffix_rfl⟩)]
  rintro ⟨j,hj⟩
  exact hnot x (mem_under_cons hj) rfl

theorem mmuClone_spec : Yields Fatal.Benign (fun x => AddressSpaces (x.1::roots) h x.2 ∧
      ∀ f, PageMapped roots h s f → PageMapped (x.1::roots) h x.2 f) (mmuClone r s) := by
  refine Yields.bind (mmuAllocateAFrame_yields s) ?_
  rintro ⟨fresh,s1⟩ ha
  have hma := mmuMapFromPhysical_of_lt ha.lt
  dsimp only
  rw [hma]
  have hne : r≠fresh := by
    rintro rfl
    exact ha.fresh (inv.table_used (p := []) hr trivial rfl)
  generalize hs2 : s1.setFrame fresh (fun i => if i<256 then .ofRaw 0 else s1.mem r i)=s2
  have hmem : ∀ t, t≠fresh → s2.mem t=s.mem t := by
    intro t ht
    rw [← hs2,MMU.setFrame_mem,if_neg ht,ha.mem]
  have hfr : ∀ i, s2.mem fresh i=if i<256 then .ofRaw 0 else s.mem r i := by
    intro i
    rw [← hs2,MMU.setFrame_mem,if_pos rfl,ha.mem]
  obtain ⟨inv2,hvi2⟩ := inv.add_root ha.lt ha.fresh hr hmem (fun i hi => by rw [hfr,if_pos hi]; rfl)
    (fun i hi _ => by rw [hfr,if_neg (by omega)])
    (by rw [← hs2]; exact ha.nframes)
    (by rw [← hs2,MMU.setFrame_refs,ha.refs])
    (by rw [← hs2]; exact ha.used)
  have hva : Vacant (fresh::roots) h fresh [] 0 s2 := by
    intro i _ x hx
    have hn : view roots h.frames s x=none := by
      have ho : fresh∉roots := fun hf => ha.fresh (inv.table_used (p := []) hf trivial rfl)
      cases x with
      | held f => exact hx.elim
      | table r q => simp [view,hx.1,ho]
      | page r q l => simp [view,hx.1,ho]
    rw [hvi2,update_of_ne,hn]
    rintro rfl
    have := hx.2.length_le
    simp at this
  have hro : fresh∈fresh::roots := mem_cons_self
  have hr' : r∈fresh::roots := mem_cons_of_mem _ hr
  have hpa : TablePath [] := trivial
  refine Yields.bind (P := Copies (fresh::roots) h fresh [] s2) ?_ ?_
  · apply cloneTables_spec inv2 hr' hro hne hpa (by simp) rfl rfl _ hva
    intro i u v s4 inv4 hp1 hu hv hvac
    apply cloneTables_spec inv4 hr' hro hne hp1 (by simp) hu hv _ hvac
    intro j u v s6 inv6 hp2 hu hv hvac
    apply cloneTables_spec inv6 hr' hro hne hp2 (by simp) hu hv _ hvac
    intro k u v s8 inv8 hp3 hu hv hvac
    exact clonePages_spec inv8 hr' hro hne hp3 hu hv hvac
  intro s3 hc
  refine .ok ⟨hc.inv,?_⟩
  rintro f ⟨r',q,l,m,hm,rfl⟩
  have hm2 : view (fresh::roots) h.frames s2 (.page r' q l)=some m := by
    rw [hvi2,update_of_ne (by simp),hm]
  have hr'ne : r' ≠ fresh := by
    rintro rfl
    have ho : r' ∉ roots := fun hf => ha.fresh (inv.table_used (p := []) hf trivial rfl)
    simp [view,ho] at hm
  obtain ⟨m',hm',hfrm⟩ := hc.pages r' q l m hr'ne hm2
  exact ⟨r',q,l,m',hm',hfrm⟩

end
end RazionOS.Kernel
