import RazionOS.Kernel.Arch.AddressSpace

/-! # The operations on shared pages -/

namespace RazionOS.Kernel
open Framework Function Except

def pathOf (a : Nat) : List Nat := [pdEntry a, pdpEntry a, pml4Entry a]

theorem entries_lt : pdpEntry a<512 ∧ pdEntry a<512 ∧ ptEntry a<512 := by
  unfold pdpEntry pdEntry ptEntry
  omega

theorem pagePath_pathOf (h : pml4Entry a<256) : PagePath (pathOf a) (ptEntry a) := by
  obtain ⟨hp,hpd,hpt⟩ := entries_lt
  exact ⟨⟨⟨⟨trivial,by simp,h⟩,by simp,hp⟩,by simp,hpd⟩,rfl,hpt⟩

theorem pathAddress_pathOf (a : Nat) :
    pathAddress (pathOf a) (ptEntry a)=a%2^48/pageSize*pageSize := by
  change addressOf (pml4Entry a) (pdpEntry a) (pdEntry a) (ptEntry a)=_
  unfold addressOf pml4Entry pdpEntry pdEntry ptEntry pageAddr pageSize
  omega

theorem walk_pathOf : walk mem r (pathOf a)=some t ↔ (mem r (pml4Entry a)).present=true ∧
      (mem (mem r (pml4Entry a)).frame (pdpEntry a)).present=true ∧
      (mem (mem (mem r (pml4Entry a)).frame (pdpEntry a)).frame (pdEntry a)).present=true ∧
      t=(mem (mem (mem r (pml4Entry a)).frame (pdpEntry a)).frame (pdEntry a)).frame := by
  simp only [pathOf,walk,Option.bind_some]
  cases h1 : (mem r (pml4Entry a)).present
  · simp
  cases h2 : (mem (mem r (pml4Entry a)).frame (pdpEntry a)).present
  · simp [h2]
  cases h3 : (mem (mem (mem r (pml4Entry a)).frame (pdpEntry a)).frame (pdEntry a)).present
  · simp [h2,h3]
  · simp only [h2,h3,if_true,Option.bind_some,Option.some.injEq,true_and]
    exact eq_comm

theorem mmuGetPageOther_eq_some_iff : mmuGetPageOther r a s=some (t, l) ↔
      walk s.mem r (pathOf a)=some t ∧ l=ptEntry a ∧
      (s.mem (s.mem r (pml4Entry a)).frame (pdpEntry a)).size=false ∧
      (s.mem (s.mem (s.mem r (pml4Entry a)).frame (pdpEntry a)).frame (pdEntry a)).size =
        false := by
  rw [walk_pathOf]
  unfold mmuGetPageOther
  cases h1 : (s.mem r (pml4Entry a)).present
  · simp
  cases h2 : (s.mem (s.mem r (pml4Entry a)).frame (pdpEntry a)).present
  · simp [h2]
  cases h3 : (s.mem (s.mem (s.mem r (pml4Entry a)).frame (pdpEntry a)).frame (pdEntry a)).present
  · simp [h3]
  cases h4 : (s.mem (s.mem r (pml4Entry a)).frame (pdpEntry a)).size
  · cases h5 : (s.mem (s.mem (s.mem r (pml4Entry a)).frame (pdpEntry a)).frame (pdEntry a)).size
    · simp [h2,h3,h4,h5,eq_comm]
    · simp [h5]
  · simp [h4]

private theorem mmuGetPageDeep_eq_some_iff : mmuGetPageDeep r a s=some x ↔
      ∃ pdp pd pt, walk s.mem r [pml4Entry a]=some pdp ∧
        walk s.mem r [pdpEntry a, pml4Entry a]=some pd ∧ walk s.mem r (pathOf a)=some pt ∧
        x=((r, pml4Entry a), (pdp, pdpEntry a), (pd, pdEntry a), (pt, ptEntry a)) := by
  unfold mmuGetPageDeep
  simp only [pathOf,walk,Option.bind_some]
  cases h1 : (s.mem r (pml4Entry a)).present
  · simp
  cases h2 : (s.mem (s.mem r (pml4Entry a)).frame (pdpEntry a)).present
  · simp [h2]
  cases h3 : (s.mem (s.mem (s.mem r (pml4Entry a)).frame (pdpEntry a)).frame (pdEntry a)).present
  · simp [h2,h3]
  simp only [h2,h3,if_true,Option.bind_some,Option.some.injEq,Bool.not_true,Bool.false_eq_true,
    if_false]
  constructor
  · rintro rfl
    exact ⟨_,_,_,rfl,rfl,rfl,rfl⟩
  · rintro ⟨pdp,pd,pt,rfl,rfl,rfl,rfl⟩
    rfl

theorem AddressSpaces.kernel_lookup (inv : AddressSpaces roots h s) (hr : r∈roots)
    (hh : 256≤pml4Entry a) (ha : mmuGetPageOther r a s=some (t, l))
    (hpres : (s.mem t l).present=true) : (s.mem t l).cowPending=false := by
  obtain ⟨hw,rfl,hs1,hs2⟩ := mmuGetPageOther_eq_some_iff.1 ha
  obtain ⟨h1,h2,h3,rfl⟩ := walk_pathOf.1 hw
  obtain ⟨hp,hpd,hpt⟩ := entries_lt
  have hlt : pml4Entry a<512 := by
    unfold pml4Entry
    omega
  have hk1 := inv.kernel r hr _ hh hlt h1
  have hk2 := inv.pdps _ hk1 _ hp h2 hs1
  have hk3 := inv.pds _ hk2 _ hpd h3 hs2
  exact inv.pts _ hk3 _ hpt hpres

theorem leafMapping_of_user (hpres : e.present=true) (huser : e.user=true) :
    leafMapping e=some ⟨e.page.toNat,e.writable,e.cowPending⟩ := by
  simp [leafMapping,hpres,huser]

theorem leafMapping_eq_some (h : leafMapping e=some m) :
    e.present=true ∧ e.user=true ∧ m=⟨e.page.toNat,e.writable,e.cowPending⟩ := by
  unfold leafMapping at h
  split at h
  · rename_i hpu
    exact ⟨hpu.1,hpu.2,by simpa using h.symm⟩
  · cases h

def PageMapped (roots : List Nat) (h : Held) (s : MMU) (f : Nat) : Prop :=
  ∃ r p l m, view roots h.frames s (.page r p l)=some m ∧ m.frame=f

private theorem PageMapped.of_update (hv : view roots h.frames s place=some m0)
    (hv' : view roots h.frames s' = update (view roots h.frames s) place (some m))
    (hm : m.frame=m0.frame ∨ ∃ r' p' l' m', Place.page r' p' l' ≠ place ∧
      view roots h.frames s (.page r' p' l')=some m' ∧ m'.frame=m0.frame)
    (hf : PageMapped roots h s f) : PageMapped roots h s' f := by
  obtain ⟨r,p,l,m1,hm1,rfl⟩ := hf
  by_cases hp : Place.page r p l=place
  · rw [hp,hv] at hm1
    cases hm1
    rcases hm with hm | ⟨r',p',l',m',hne,hm',hfr⟩
    · exact ⟨r,p,l,m,by rw [hp,hv',update_self],hm⟩
    · exact ⟨r',p',l',m',by rw [hv',update_of_ne hne,hm'],hfr⟩
  · exact ⟨r,p,l,m1,by rw [hv',update_of_ne hp,hm1],rfl⟩

section Page
variable (inv : AddressSpaces roots h s)
include inv

theorem AddressSpaces.page_of_counted (hi : view roots h.frames s i=some m)
    (hr : s.refs m.frame≠0) : ∃ r p l, i = .page r p l := by
  have hs : ∀ t, m = .sole t → False := by
    rintro t rfl
    exact hr (inv.sharing.writable i _ hi rfl)
  cases i with
  | page r p l => exact ⟨r,p,l,rfl⟩
  | table r p =>
    simp only [view] at hi
    split at hi
    · obtain ⟨t,-,ht⟩ := Option.map_eq_some_iff.1 hi
      exact (hs t ht.symm).elim
    · cases hi
  | held f =>
    simp only [view] at hi
    split at hi
    · cases hi
      exact (hs f rfl).elim
    · cases hi

theorem CowDone.addressSpaces (hr : r∈roots) (hp : PagePath p l)
    (hs : ¬ IsShared (pathAddress p l)) (hw : walk s.mem r p=some t)
    (hpres : (s.mem t l).present=true) (huser : (s.mem t l).user=true) (hd : CowDone s t l s') :
    AddressSpaces roots h s' ∧ ∀ f, PageMapped roots h s f → PageMapped roots h s' f := by
  have hv : view roots h.frames s (.page r p l) =
      some ⟨(s.mem t l).page.toNat,(s.mem t l).writable,(s.mem t l).cowPending⟩ :=
    (view_page hr hp hs hw).trans (leafMapping_of_user hpres huser)
  cases hd with
  | last hre =>
    generalize hs' : (s.setRefcount (s.mem t l).page.toNat 0).setEntry t l
      { s.mem t l with writable := true, cowPending := false }=s'
    have he : s'.mem t l = { s.mem t l with writable := true, cowPending := false } := by
      simp [← hs',MMU.setEntry_mem]
    have hmem : ∀ t' i, t' ∉ [] → t' ≠ t ∨ i≠l → s'.mem t' i=s.mem t' i := by
      intro t' i _ hne
      rw [← hs',MMU.setEntry_mem,if_neg (by omega),MMU.setRefcount_mem]
    have hma : leafMapping (s'.mem t l)=some ⟨(s.mem t l).page.toNat,true,false⟩ := by
      simp [he,leafMapping,hpres,huser]
    obtain ⟨inv',hv'⟩ := inv.set_page hr hp hs hw (by simp) hmem (by rw [← hs']; rfl)
      (by simp [he]) (by
        rw [hma,← hs',MMU.setEntry_refs,MMU.setRefcount_refs]
        exact inv.sharing.uncount_one hv hre true)
    rw [hma] at hv'
    exact ⟨inv',fun f => .of_update hv hv' (.inl rfl)⟩
  | copy hn hre ha =>
    rename_i n fresh s1
    have hf := ha.fresh
    have hlt := ha.lt
    have hne : t≠fresh := by
      rintro rfl
      exact hf (inv.table_used hr hp.1 hw)
    have hmem1 : s1.mem=s.mem := ha.mem
    generalize hs' : (s1.setFrame fresh (s.mem (s.mem t l).frame)).setEntry t l _=s'
    have he : s'.mem t l = { s.mem t l with
        page := BitVec.ofNat 28 fresh
        writable := true
        cowPending := false } := by
      simp [← hs',MMU.setEntry_mem,MMU.setFrame_mem,hne,hmem1]
    have hmem : ∀ t' i, t' ∉ [fresh] → t' ≠ t ∨ i≠l → s'.mem t' i=s.mem t' i := by
      intro t' i ht' hne'
      rw [← hs',MMU.setEntry_mem,if_neg (by omega),MMU.setFrame_mem,if_neg (by simpa using ht'),
        hmem1]
    have hma : leafMapping (s'.mem t l)=some ⟨fresh,true,false⟩ := by
      simp [he,leafMapping,hpres,huser,ofNat_page hlt]
    have hsh : Sharing (update (view roots h.frames s) (.page r p l)
        (some ⟨fresh,true,false⟩)) s'.refs s'.Used := by
      have hdr : Sharing (update (view roots h.frames s) (.page r p l) none)
          (update s.refs (s.mem t l).page.toNat n.toNat) s.Used :=
        inv.sharing.unmap_counted hv hre (by simp [hn])
      have hu : ∀ g, s'.Used g ↔ s.Used g ∨ g=fresh := by
        rw [← hs']
        exact ha.used
      have had := hdr.map_fresh (i := .page r p l) (by simp) hf true hu
      rw [update_idem] at had
      have hre' : s'.refs=update s.refs (s.mem t l).page.toNat n.toNat := by
        rw [← hs',MMU.setEntry_refs,MMU.setFrame_refs,ha.refs,MMU.setRefcount_refs]
      rw [hre']
      exact had
    obtain ⟨inv',hv'⟩ := inv.set_page hr hp hs hw
      (by simpa using inv.loose_of_unused hlt hf) hmem (by rw [← hs']; exact ha.nframes)
      (by simp [he]) (hma ▸ hsh)
    rw [hma] at hv'
    -- the page left behind has another place, since its count was at two
    have hno : (users (view roots h.frames s) (s.mem t l).page.toNat \ {.page r p l}).Nonempty := by
      rw [← Set.encard_ne_zero,inv.sharing.encard_users_remove hv hre]
      exact_mod_cast hn
    obtain ⟨j,⟨m',hm',hfr⟩,hj⟩ := hno
    have hc : s.refs m'.frame≠0 := by
      rw [hfr]
      omega
    obtain ⟨r',p',l',rfl⟩ := inv.page_of_counted hm' hc
    exact ⟨inv',fun f => .of_update hv hv' (.inr ⟨r',p',l',m',hj,hm',hfr⟩)⟩
end Page

theorem freePageMaybe_spec {i : Place} (hs : Sharing maps s.refs s.Used) (ht : Tight F maps s.Used)
    (hi : maps i=some ⟨(s.mem pt l).page.toNat,(s.mem pt l).writable,(s.mem pt l).cowPending⟩)
    (h : freePageMaybe pt l s = .ok s') : s'.mem=s.mem ∧ s'.nframes=s.nframes ∧
      Sharing (update maps i none) s'.refs s'.Used ∧ Tight F (update maps i none) s'.Used := by
  have hso : s.refs (s.mem pt l).page.toNat=0 →
      s' = mmuFrameClear ((s.mem pt l).page.toNat * pageSize) s →
      s'.mem=s.mem ∧ s'.nframes=s.nframes ∧ Sharing (update maps i none) s'.refs s'.Used ∧
        Tight F (update maps i none) s'.Used := by
    rintro hr rfl
    have hu := mmuFrameClear_used s (s.mem pt l).page.toNat
    refine ⟨by simp,by simp,?_,?_⟩
    · rw [mmuFrameClear_refs]
      exact hs.unmap_sole hi hr hu
    · exact Sharing.unmap_sole_tight ht hi hu
  have hz : s.memRefcounts (s.mem pt l).page.toNat=0 → s.refs (s.mem pt l).page.toNat=0 := by
    intro h0
    rw [MMU.refs,h0]
    rfl
  unfold freePageMaybe at h
  dsimp only at h
  split at h
  · split at h
    · cases h
    · rename_i hr
      cases h
      exact hso (hz (by simpa using hr)) rfl
  split at h
  · rename_i hro
    cases h
    exact hso (hz (by simp at hro; exact hro.2)) rfl
  obtain ⟨⟨n,s1⟩,hd,h⟩ := bind_eq_ok.1 h
  obtain ⟨-,hr,rfl⟩ := refcountDec_eq_ok hd
  dsimp only at h
  split at h
  · rename_i hn
    cases h
    have hu : ∀ g, (mmuFrameClear ((s.mem pt l).page.toNat * pageSize)
        (s.setRefcount (s.mem pt l).page.toNat n)).Used g ↔
          s.Used g ∧ (g=(s.mem pt l).page.toNat → n.toNat≠0) := by
      intro g
      rw [mmuFrameClear_used,hn]
      simp
    refine ⟨by simp,by simp; rfl,?_,?_⟩
    · rw [mmuFrameClear_refs,MMU.setRefcount_refs]
      exact hs.unmap_counted hi hr hu
    · exact hs.unmap_counted_tight ht hi hr hu
  · rename_i hn
    cases h
    have hn' : n.toNat≠0 := fun h0 => hn (BitVec.eq_of_toNat_eq h0)
    have hu : ∀ g, (s.setRefcount (s.mem pt l).page.toNat n).Used g ↔
        s.Used g ∧ (g=(s.mem pt l).page.toNat → n.toNat≠0) := by
      simp [hn']
    refine ⟨rfl,rfl,?_,?_⟩
    · rw [MMU.setRefcount_refs]
      exact hs.unmap_counted hi hr hu
    · exact hs.unmap_counted_tight ht hi hr hu

def LowTables (s : MMU) (r : Nat) : Prop :=
  ∀ p t, TablePath p → walk s.mem r p=some t → t<2^19

def Shrinks (roots : List Nat) (s s' : MMU) : Prop :=
  ∀ r p t, r∈roots → TablePath p → walk s'.mem r p=some t → walk s.mem r p=some t

private theorem maybeReleaseDirectory_spec (inv : AddressSpaces roots h s)
    (ht : Tight F (view roots h.frames s) s.Used) (hr : r∈roots)
    (hp : TablePath (i::p)) (hw : walk s.mem r p=some t) (hu : walk s.mem r (i::p)=some u)
    (hl : LowTables s r) :
    AddressSpaces roots h (maybeReleaseDirectory (t, i) (u, j) s).2 ∧
    Tight F (view roots h.frames (maybeReleaseDirectory (t, i) (u, j) s).2)
      (maybeReleaseDirectory (t, i) (u, j) s).2.Used ∧
    Shrinks roots s (maybeReleaseDirectory (t, i) (u, j) s).2 ∧
    ∀ q, TablePath q → ¬ (i::p) <:+ q →
      walk (maybeReleaseDirectory (t, i) (u, j) s).2.mem r q=walk s.mem r q := by
  unfold maybeReleaseDirectory
  split
  · exact ⟨inv,ht,fun _ _ _ _ _ hw => hw,fun _ _ _ => rfl⟩
  rename_i ha
  have he : ∀ k<512, (s.mem u k).present=false := by simpa using ha
  obtain ⟨t',hw',hpres,hf⟩ := walk_cons_eq_some hu
  cases hw.symm.trans hw'
  have hpa : (s.mem t i).page.toNat=u := by
    rw [hf,inv.frame_eq_page hr hp hw hpres]
  have hsh : shiftedAsInt (s.mem t i).page=u*pageSize := by
    rw [shiftedAsInt_of_lt (by rw [hpa]; exact hl _ _ hp hu),hpa]
  dsimp only
  rw [hsh]
  generalize hs' : mmuFrameClear (u*pageSize) (s.setEntry t i (.ofRaw 0))=s'
  have hmem : s'.mem=(s.setEntry t i (.ofRaw 0)).mem := by rw [← hs',mmuFrameClear_mem]
  have hre : s'.refs=s.refs := by
    rw [← hs',mmuFrameClear_refs]
    rfl
  have hus : ∀ g, s'.Used g ↔ s.Used g ∧ g≠u := by
    intro g
    rw [← hs',mmuFrameClear_used,MMU.setEntry_used]
  have hen : s'.mem t i = .ofRaw 0 := by
    rw [hmem,MMU.setEntry_mem]
    simp
  have ed : Edit roots h s s' r p t i [] := by
    refine ⟨hr,hp.1,hw,?_,by simp,?_,?_⟩
    · have := hp.2.2
      cases p with
      | nil => exact .inl this
      | cons => simp
    · intro t' k _ hne
      rw [hmem,MMU.setEntry_mem,if_neg (by omega)]
    · rw [← hs',mmuFrameClear_nframes]
      rfl
  have hwa : walk s'.mem r p=some t := by
    rw [ed.walk_eq inv hr hp.1,hw]
    intro hin
    have := hin.2.length_le
    simp at this
  have st : Stub s.mem r (i::p) (some u) := by
    refine ⟨hu,?_⟩
    rintro _ ⟨⟩
    exact he
  have st' : Stub s'.mem r (i::p) none := by
    refine ⟨?_,by simp⟩
    rw [walk_cons hwa,hen]
    rfl
  have hpl : view roots h.frames s (.table r (i::p))=some (.sole u) := view_table hr hp hu
  have hre0 := inv.sharing.writable _ _ hpl rfl
  refine ⟨?_,?_,?_,?_⟩
  · apply inv.edit_table ed hp st st'
    · rw [hen]
      intro hpr'
      cases hpr'
    · rw [hre]
      exact inv.sharing.unmap_sole hpl hre0 hus
  · rw [ed.view_of_stub inv hp st st']
    exact Sharing.unmap_sole_tight ht hpl hus
  · intro r' q v hr' hq hv
    by_cases hin : r' = r ∧ (i::p) <:+ q
    · obtain ⟨rfl,hsu⟩ := hin
      rw [walk_eq_none_of_suffix st'.walk hsu] at hv
      cases hv
    · rwa [ed.walk_eq inv hr' hq hin] at hv
  · intro q hq ho
    exact ed.walk_eq inv hr hq fun hin => ho hin.2
structure Releases (roots : List Nat) (h : Held) (F : Set Nat) (s s' : MMU) : Prop where
  inv : AddressSpaces roots h s'
  tight : Tight F (view roots h.frames s') s'.Used
  shrinks : Shrinks roots s s'

theorem Releases.trans (h1 : Releases roots h F s s') (h2 : Releases roots h F s' s'') :
    Releases roots h F s s'' :=
  ⟨h2.inv,h2.tight,fun r p t hr hp hw => h1.shrinks r p t hr hp (h2.shrinks r p t hr hp hw)⟩

theorem Shrinks.lowTables (h : Shrinks roots s s') (hr : r∈roots) (hl : LowTables s r) :
    LowTables s' r :=
  fun p t hp hw => hl p t hp (h r p t hr hp hw)

section
variable (inv : AddressSpaces roots h s) (ht : Tight F (view roots h.frames s) s.Used)
include inv ht

private theorem releaseDirectories_spec (hr : r∈roots) (hp : TablePath [k, j, i])
    (hpdp : walk s.mem r [i]=some pdp) (hpd : walk s.mem r [j, i]=some pd)
    (hpt : walk s.mem r [k, j, i]=some pt) (hl : LowTables s r) :
    Releases roots h F s (releaseDirectories (r, i) (pdp, j) (pd, k) (pt, l) s) := by
  unfold releaseDirectories
  obtain ⟨inv1,ht1,hs1,hw1⟩ := maybeReleaseDirectory_spec inv ht hr hp hpd hpt hl
  generalize maybeReleaseDirectory (pd, k) (pt, l) s=x1 at *
  obtain ⟨b1,s1⟩ := x1
  have rel1 : Releases roots h F s s1 := ⟨inv1,ht1,hs1⟩
  dsimp only at *
  split
  swap
  · exact rel1
  have hpd1 : walk s1.mem r [j, i]=some pd := by
    rw [hw1 _ hp.1 (by simp [List.suffix_cons_iff]),hpd]
  have hpdp1 : walk s1.mem r [i]=some pdp := by
    rw [hw1 _ hp.1.1 (by simp [List.suffix_cons_iff]),hpdp]
  obtain ⟨inv2,ht2,hs2,hw2⟩ :=
    maybeReleaseDirectory_spec inv1 ht1 hr hp.1 hpdp1 hpd1 (hs1.lowTables hr hl)
  generalize maybeReleaseDirectory (pdp, j) (pd, k) s1=x2 at *
  obtain ⟨b2,s2⟩ := x2
  have rel2 := rel1.trans ⟨inv2,ht2,hs2⟩
  split
  swap
  · exact rel2
  have hpdp2 : walk s2.mem r [i]=some pdp := by
    rw [hw2 _ hp.1.1 (by simp [List.suffix_cons_iff]),hpdp1]
  obtain ⟨inv3,ht3,hs3,-⟩ :=
    maybeReleaseDirectory_spec inv2 ht2 hr hp.1.1 rfl hpdp2 (rel2.shrinks.lowTables hr hl)
  exact rel2.trans ⟨inv3,ht3,hs3⟩

private theorem unmapUserPage_spec {r : Nat} (hr : r∈roots) (ha : a<2^47)
    (hal : a%pageSize=0) (hl : LowTables s r) (hok : unmapUserPage r a s = .ok s') :
    Releases roots h F s s' := by
  have hsa : Releases roots h F s s := ⟨inv,ht,fun _ _ _ _ _ hw => hw⟩
  unfold unmapUserPage at hok
  split at hok
  · cases hok
    exact hsa
  rename_i hns
  split at hok
  · cases hok
    exact hsa
  rename_i pml4 pdpSlot pdSlot ptSlot hd
  obtain ⟨pdp,pd,pt,hpdp,hpd,hpt,hsl⟩ := mmuGetPageDeep_eq_some_iff.1 hd
  cases hsl
  split at hok
  swap
  · cases hok
    exact hsa
  rename_i hpu
  have hpu : (s.mem pt (ptEntry a)).present=true ∧ (s.mem pt (ptEntry a)).user=true := by
    simpa using hpu
  have hi : pml4Entry a<256 := by
    unfold pml4Entry pageAddr pageSize
    omega
  have hp := pagePath_pathOf hi
  have had : pathAddress (pathOf a) (ptEntry a)=a := by
    rw [pathAddress_pathOf]
    unfold pageSize at *
    omega
  have hs : ¬ IsShared (pathAddress (pathOf a) (ptEntry a)) := by
    rw [had]
    exact hns
  have hv : view roots h.frames s (.page r (pathOf a) (ptEntry a))=_ :=
    (view_page hr hp hs hpt).trans (leafMapping_of_user hpu.1 hpu.2)
  obtain ⟨s1,hf,hok⟩ := bind_eq_ok.1 hok
  obtain ⟨hmem,hn,hsha,hti⟩ := freePageMaybe_spec inv.sharing ht hv hf
  obtain rfl := ok.inj hok
  generalize hs2 : s1.setEntry pt (ptEntry a)
    { s1.mem pt _ with present := false, writable := false }=s2
  have he : (s2.mem pt (ptEntry a)).present=false := by
    rw [← hs2,MMU.setEntry_mem]
    simp
  have ed : Edit roots h s s2 r (pathOf a) pt (ptEntry a) [] := by
    refine ⟨hr,hp.1,hpt,.inr (.inl hp.ne_nil),by simp,?_,?_⟩
    · intro t i _ hne
      rw [← hs2,MMU.setEntry_mem,if_neg (by omega),hmem]
    · rw [← hs2]
      exact hn
  have hm : pageMapping (pathOf a) (ptEntry a) (s2.mem pt (ptEntry a))=none := by
    simp [pageMapping,leafMapping,he]
  have hu : s2.Used=s1.Used := by
    rw [← hs2]
    rfl
  have inv2 : AddressSpaces roots h s2 := by
    apply inv.edit_page ed hp
    · rw [he]
      intro hpres
      cases hpres
    · rw [he]
      intro _ hpres
      cases hpres
    · rw [hm,← hs2]
      exact hsha
  have ht2 : Tight F (view roots h.frames s2) s2.Used := by
    rw [ed.view_of_page inv hp,hm,hu]
    exact hti
  have hwa : ∀ r' q, r' ∈ roots → TablePath q → walk s2.mem r' q=walk s.mem r' q := by
    intro r' q hr' hq
    exact ed.walk_eq inv hr' hq fun hin => hp.not_suffix hq hin.2
  have hsh : Shrinks roots s s2 := fun r' q t hr' hq hw => by rwa [hwa r' q hr' hq] at hw
  have hre := releaseDirectories_spec (l := ptEntry a) inv2 ht2 hr hp.1
    ((hwa r _ hr hp.1.1.1).trans hpdp) ((hwa r _ hr hp.1.1).trans hpd)
    ((hwa r _ hr hp.1).trans hpt) (hsh.lowTables hr hl)
  exact Releases.trans ⟨inv2,ht2,hsh⟩ hre

/-- Unmaps within the user half give back exactly what nothing maps any more. -/
theorem mmuUnmapUser_spec (hr : r∈roots) (ha : addr%pageSize=0)
    (hh : addr+size≤2^47) (hl : LowTables s r) (hok : mmuUnmapUser r addr size s = .ok s') :
    Releases roots h F s s' := by
  unfold mmuUnmapUser at hok
  dsimp only at hok
  split at hok
  · cases hok
  refine forRange_invariant (fun _ s1 => Releases roots h F s s1)
    ⟨inv,ht,fun _ _ _ _ _ hw => hw⟩ ?_ hok
  intro i s1 s2 hi hre hro
  have hround_lt : addr+i*pageSize<2^47 := by
    unfold unmapRounds pageSize at *
    omega
  have hround_aligned : (addr+i*pageSize)%pageSize=0 := by
    unfold pageSize at *
    omega
  have hre' := unmapUserPage_spec hre.inv hre.tight hr hround_lt hround_aligned
    (hre.shrinks.lowTables hr hl) hro
  exact hre.trans hre'

end

structure Pair (roots : List Nat) (s : MMU) (r r' tin tout l : Nat) (p : List Nat) : Prop where
  source : r∈roots
  target : r' ∈ roots
  ne : r≠r'
  path : PagePath p l
  priv : ¬ IsShared (pathAddress p l)
  table : walk s.mem r p=some tin
  table' : walk s.mem r' p=some tout

structure Copied (roots : List Nat) (h : Held) (r r' l : Nat) (p : List Nat) (s s' : MMU) :
    Prop where
  inv : AddressSpaces roots h s'
  source : ∀ m, view roots h.frames s (.page r p l)=some m →
    ∃ m', view roots h.frames s' (.page r p l)=some m' ∧ m'.frame=m.frame
  other : ∀ x, x ≠ .page r p l → x ≠ .page r' p l → view roots h.frames s' x=view roots h.frames s x

theorem Copied.of_update (pr : Pair roots s r r' tin tout l p) (inv' : AddressSpaces roots h s')
    (hv : view roots h.frames s' = update (view roots h.frames s) (.page r' p l) o) :
    Copied roots h r r' l p s s' := by
  have hne : Place.page r p l ≠ .page r' p l := by simp [pr.ne]
  refine ⟨inv',?_,?_⟩
  · intro m hm
    exact ⟨m,by rw [hv,update_of_ne hne,hm],rfl⟩
  · intro x _ hx
    rw [hv,update_of_ne hx]

private theorem Copied.of_source (hm : view roots h.frames s (.page r p l)=some m)
    (hv : view roots h.frames s1=update (view roots h.frames s) (.page r p l) (some m1))
    (hf : m1.frame=m.frame) (hc : Copied roots h r r' l p s1 s') :
    Copied roots h r r' l p s s' := by
  refine ⟨hc.inv,?_,?_⟩
  · rintro m' hm'
    rw [hm] at hm'
    cases hm'
    obtain ⟨m2,hm2,hf2⟩ := hc.source m1 (by rw [hv,update_self])
    exact ⟨m2,hm2,hf2.trans hf⟩
  · intro x hx hx'
    rw [hc.other x hx hx',hv,update_of_ne hx]

private theorem shareOrCopy_benign : Benign (do
    let (full, s') ← refcountInc (s.mem tin l).page.toNat s
    if full then copyPage tin tout l w s' else return s'.setEntry tout l (s'.mem tin l)) := by
  refine (refcountInc_benign _ s).bind fun x _ => ?_
  dsimp only
  split
  · exact copyPage_benign tin tout l w x.2
  · exact .ok trivial

section
variable (pr : Pair roots s r r' tin tout l p)
include pr

section
variable (inv : AddressSpaces roots h s)
include inv

theorem Pair.share (hsr : view roots h.frames s (.page r p l)=some m)
    (ht : view roots h.frames s (.page r' p l)=none) (hr : s.refs m.frame=n) (hn : n≠0)
    (hmem : s'.mem=(s.setEntry tout l (s.mem tin l)).mem) (hnf : s'.nframes=s.nframes)
    (hr' : s'.refs=update s.refs m.frame (n+1)) (hu : s'.Used=s.Used) :
    Copied roots h r r' l p s s' := by
  have he : s'.mem tout l=s.mem tin l := by
    rw [hmem,MMU.setEntry_mem]
    simp
  have hl : leafMapping (s'.mem tout l)=some m := by
    rw [he,← view_page pr.source pr.path pr.priv pr.table]
    exact hsr
  have hmem' : ∀ t i, t∉[] → t≠tout ∨ i≠l → s'.mem t i=s.mem t i := by
    intro t i _ hne
    rw [hmem,MMU.setEntry_mem,if_neg (by omega)]
  have hs := inv.set_page pr.target pr.path pr.priv pr.table' (by simp) hmem' hnf
    (by simp [(leafMapping_eq_some hl).2.1])
    (by
      rw [hl,hr',hu]
      exact inv.sharing.map_counted hsr hr hn ht)
  exact .of_update pr hs.1 hs.2

private theorem copyPage_spec (htg : view roots h.frames s (.page r' p l)=none)
    (hok : copyPage tin tout l w s = .ok s') :
    Copied roots h r r' l p s s' := by
  obtain ⟨⟨fresh,s1⟩,ha,hok⟩ := bind_eq_ok.1 hok
  have ha := mmuAllocateAFrame_spec ha
  have hm := mmuMapFromPhysical_of_lt ha.lt
  dsimp only at hok
  split at hok
  · cases hok
  obtain rfl := ok.inj hok
  rw [hm]
  generalize hs' : MMU.setEntry _ tout l _=s'
  have he : s'.mem tout l = { PML.ofRaw 0 with
      present := true, user := true, page := BitVec.ofNat 28 fresh, writable := w,
      cowPending := false
      nx := ((s1.setFrame fresh (s1.mem (s.mem tin l).frame)).mem tin l).nx } := by
    rw [← hs',MMU.setEntry_mem]
    simp
  have hl : leafMapping (s'.mem tout l)=some ⟨fresh,w,false⟩ := by
    simp [he,leafMapping,ofNat_page ha.lt]
  have hmem : ∀ t i, t∉[fresh] → t≠tout ∨ i≠l → s'.mem t i=s.mem t i := by
    intro t i ht hne
    rw [← hs',MMU.setEntry_mem,if_neg (by omega),MMU.setFrame_mem,if_neg (by simpa using ht),ha.mem]
  have hn : s'.nframes=s.nframes := by
    rw [← hs']
    exact ha.nframes
  have hu : s'.Used=s1.Used := by
    rw [← hs']
    rfl
  have hr : s'.refs=s.refs := by
    rw [← hs',MMU.setEntry_refs,MMU.setFrame_refs,ha.refs]
  have hse := inv.set_page pr.target pr.path pr.priv pr.table'
    (by simpa using inv.loose_of_unused ha.lt ha.fresh) hmem hn (by simp [he])
    (by
      rw [hl,hu,hr]
      exact inv.sharing.map_fresh htg ha.fresh w ha.used)
  exact .of_update pr hse.1 hse.2

private theorem refcountInc_copied (hs : view roots h.frames s (.page r p l)=some m)
    (ht : view roots h.frames s (.page r' p l)=none) (hr : s.refs m.frame≠0)
    (hi : refcountInc m.frame s = .ok (full, s1))
    (hok : (if full then copyPage tin tout l w s1
      else .ok (s1.setEntry tout l (s1.mem tin l))) = .ok s') : Copied roots h r r' l p s s' := by
  rcases refcountInc_eq_ok hi with ⟨rfl,rfl⟩ | ⟨rfl,n,hn,rfl⟩
  · exact copyPage_spec pr inv ht hok
  obtain rfl := ok.inj hok
  refine pr.share inv hs ht rfl hr ?_ ?_ ?_ ?_
  · rfl
  · rfl
  · rw [MMU.setEntry_refs,MMU.setRefcount_refs,hn]
  · rfl

end

theorem Pair.view_source (h : Held) (hpres : (s.mem tin l).present=true)
    (huser : (s.mem tin l).user=true) : view roots h.frames s (.page r p l) =
      some ⟨(s.mem tin l).page.toNat,(s.mem tin l).writable,(s.mem tin l).cowPending⟩ :=
  (view_page pr.source pr.path pr.priv pr.table).trans (leafMapping_of_user hpres huser)

section
variable (inv : AddressSpaces roots h s) (hpres : (s.mem tin l).present = true)
  (huser : (s.mem tin l).user = true)
include inv hpres huser

private theorem Pair.share_first (ht : view roots h.frames s (.page r' p l)=none)
    (hre : s.refs (s.mem tin l).page.toNat=0) (c : Bool)
    (he : e = { s.mem tin l with writable := false, cowPending := c })
    (hmem : s'.mem=((s.setEntry tin l e).setEntry tout l e).mem)
    (hn : s'.nframes=s.nframes)
    (hre' : s'.refs=update s.refs (s.mem tin l).page.toNat 2) (hu : s'.Used=s.Used) :
    Copied roots h r r' l p s s' := by
  have hsr := pr.view_source h hpres huser
  have hne : Place.page r' p l ≠ .page r p l := by simp [Ne.symm pr.ne]
  generalize hs1 : (s.setRefcount (s.mem tin l).page.toNat 1).setEntry tin l e=s1
  have hen : s1.mem tin l=e := by
    rw [← hs1,MMU.setEntry_mem]
    simp
  have hl : leafMapping (s1.mem tin l)=some ⟨(s.mem tin l).page.toNat,false,c⟩ := by
    simp [hen,he,leafMapping,hpres,huser]
  have hmem1 : ∀ t i, t∉[] → t≠tin ∨ i≠l → s1.mem t i=s.mem t i := by
    intro t i _ hne
    rw [← hs1,MMU.setEntry_mem,if_neg (by omega),MMU.setRefcount_mem]
  obtain ⟨inv1,hv1⟩ := inv.set_page pr.source pr.path pr.priv pr.table (by simp) hmem1
    (by rw [← hs1]; rfl) (by simp [(leafMapping_eq_some hl).2.1]) (by
      rw [hl,← hs1,MMU.setEntry_refs,MMU.setRefcount_refs]
      exact inv.sharing.count_one hsr hre c)
  rw [hl] at hv1
  have hwa : ∀ {r t}, r∈roots → walk s.mem r p=some t → walk s1.mem r p=some t := by
    intro r t hr hw
    apply walk_of_view
    rw [hv1,update_of_ne (by simp)]
    exact view_table hr pr.path.1 hw
  have pr1 : Pair roots s1 r r' tin tout l p :=
    ⟨pr.source,pr.target,pr.ne,pr.path,pr.priv,hwa pr.source pr.table,hwa pr.target pr.table'⟩
  apply Copied.of_source hsr hv1 rfl
  apply pr1.share (n := 1) inv1 (by rw [hv1,update_self])
    (by rw [hv1,update_of_ne hne,ht]) _ (by simp) _ _ _ _
  · rw [← hs1,MMU.setEntry_refs]
    simp
  · rw [hmem,hen,← hs1]
    rfl
  · rw [hn,← hs1]
    rfl
  · rw [hre',← hs1,MMU.setEntry_refs,MMU.setRefcount_refs,update_idem]
  · rw [hu,← hs1]
    rfl

theorem copyPageMaybe_spec (ht : view roots h.frames s (.page r' p l)=none)
    (hok : copyPageMaybe tin tout l s = .ok s') : Copied roots h r r' l p s s' := by
  have hs := pr.view_source h hpres huser
  unfold copyPageMaybe at hok
  dsimp only at hok
  split at hok
  · rename_i hw
    split at hok
    · cases hok
    obtain rfl := ok.inj hok
    have hr := inv.sharing.writable _ _ hs hw
    refine pr.share_first inv hpres huser ht hr true rfl ?_ rfl ?_ rfl
    · funext t i
      simp [MMU.setEntry_mem]
    · rw [MMU.setEntry_refs,MMU.setEntry_refs,MMU.setRefcount_refs]
      rfl
  rename_i hw
  split at hok
  · rename_i hc
    split at hok
    · rename_i hz
      obtain rfl := ok.inj hok
      have hr : s.refs (s.mem tin l).page.toNat=0 := by
        rw [MMU.refs,hz]
        rfl
      have he := PML.eq_readonly (by simpa using hw) (by simpa using hc)
      refine pr.share_first inv hpres huser ht hr false he ?_ rfl ?_ rfl
      · rw [MMU.setEntry_self]
        rfl
      · rw [MMU.setEntry_refs,MMU.setRefcount_refs]
        rfl
    · rename_i hz
      obtain ⟨⟨full,s1⟩,hi,hok⟩ := bind_eq_ok.1 hok
      have hr : s.refs (s.mem tin l).page.toNat≠0 :=
        fun h0 => hz (BitVec.eq_of_toNat_eq h0)
      exact refcountInc_copied pr inv hs ht hr hi hok
  · rename_i hc
    obtain ⟨⟨full,s1⟩,hi,hok⟩ := bind_eq_ok.1 hok
    have hp := inv.sharing.pending _ _ hs (by simpa using hc)
    exact refcountInc_copied pr inv hs ht hp.2 hi hok

theorem copyPageMaybe_benign : Benign (copyPageMaybe tin tout l s) := by
  have hs := pr.view_source h hpres huser
  unfold copyPageMaybe
  dsimp only
  split
  · rename_i hw
    have hr := inv.sharing.writable _ _ hs hw
    rw [if_neg]
    · exact .ok trivial
    · intro hne
      exact hne (BitVec.eq_of_toNat_eq hr)
  · split
    · split
      · exact .ok trivial
      · exact shareOrCopy_benign
    · exact shareOrCopy_benign

end
end

structure NewTable (roots : List Nat) (h : Held) (r t i : Nat) (p : List Nat) (new : Nat)
    (s s' : MMU) : Prop where
  inv : AddressSpaces roots h s'
  view : view roots h.frames s' =
    update (view roots h.frames s) (.table r (i::p)) (some (.sole new))
  fresh : ¬ s.Used new
  empty : ∀ j, s'.mem new j = .ofRaw 0
  entry : s'.mem t i = .directory new
  mem : ∀ u j, u≠new → u≠t ∨ j≠i → s'.mem u j=s.mem u j
  refs : s'.refs=s.refs
  used : ∀ g, s'.Used g ↔ s.Used g ∨ g=new
  nframes : s'.nframes=s.nframes

theorem newDirectory_spec (inv : AddressSpaces roots h s) (hr : r∈roots) (hp : TablePath (i::p))
    (hw : walk s.mem r p=some t) (hab : walk s.mem r (i::p)=none)
    (hok : newDirectory t i s = .ok (new, s')) : NewTable roots h r t i p new s s' := by
  obtain ⟨⟨fresh,s1⟩,ha,hok⟩ := bind_eq_ok.1 hok
  have ha := mmuAllocateAFrame_spec ha
  have hm := mmuMapFromPhysical_of_lt ha.lt
  simp only [hm,pure_eq_ok,ok.injEq,Prod.mk.injEq] at hok
  obtain ⟨rfl,hs'⟩ := hok
  have hlt : fresh<2^27 := Nat.lt_of_lt_of_le ha.lt s.nframes_le
  have hne : t≠fresh := by
    rintro rfl
    exact ha.fresh (inv.table_used hr hp.1 hw)
  have hen : s'.mem t i = .directory fresh := by
    rw [← hs',MMU.setEntry_mem]
    simp
  have he : ∀ j, s'.mem fresh j = .ofRaw 0 := by
    intro j
    rw [← hs',MMU.setEntry_mem,if_neg (by omega),MMU.setFrame_mem,if_pos rfl]
  have hmem : ∀ u j, u≠fresh → u≠t ∨ j≠i → s'.mem u j=s.mem u j := by
    intro u j hu hsl
    rw [← hs',MMU.setEntry_mem,if_neg (by omega),MMU.setFrame_mem,if_neg hu,ha.mem]
  have hnf : s'.nframes=s.nframes := by
    rw [← hs']
    exact ha.nframes
  have hre : s'.refs=s.refs := by
    rw [← hs',MMU.setEntry_refs,MMU.setFrame_refs,ha.refs]
  have hus : ∀ g, s'.Used g ↔ s.Used g ∨ g=fresh := by
    rw [← hs']
    exact ha.used
  have ed : Edit roots h s s' r p t i [fresh] := by
    refine ⟨hr,hp.1,hw,?_,?_,?_,hnf⟩
    · by_cases hni : p=[]
      · subst hni
        exact .inl hp.2.2
      · exact .inr (.inl hni)
    · simpa using inv.loose_of_unused ha.lt ha.fresh
    · intro u j hu
      exact hmem u j (by simpa using hu)
  have st : Stub s.mem r (i::p) none := ⟨hab,by simp⟩
  have hwa : walk s'.mem r p=some t := by
    rw [ed.walk_eq inv hr hp.1,hw]
    intro hin
    have := hin.2.length_le
    simp at this
  have st' : Stub s'.mem r (i::p) (some fresh) := by
    refine ⟨?_,?_⟩
    · rw [walk_cons hwa,hen,if_pos (by simp),PML.directory_frame hlt]
    rintro _ ⟨⟩ j -
    rw [he]
    rfl
  have hn : view roots h.frames s (.table r (i::p))=none := by
    simp [view,hab]
  refine ⟨?_,ed.view_of_stub inv hp st st',ha.fresh,he,hen,hmem,hre,hus,hnf⟩
  apply inv.edit_table ed hp st st'
  · intro _
    rw [hen,PML.directory_page hlt]
    exact ⟨by simp,hlt⟩
  · rw [hre]
    exact inv.sharing.map_fresh hn ha.fresh true hus
end RazionOS.Kernel
