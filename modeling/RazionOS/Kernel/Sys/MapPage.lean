import RazionOS.Kernel.Sys.Mman

/-! # One page of a mapping -/

namespace RazionOS.Kernel
open Framework Function MMU

def leafWord (s : MMU) (r a : Nat) : PML :=
  match mmuGetPageOther r a s with
  | some (t, l) => s.mem t l
  | none => .ofRaw 0

theorem leafWord_of_walk (lay : Layout roots h s) (hr : r∈roots) (ha : pml4Entry a<256)
    (hw : walk s.mem r (pathOf a)=some t) : leafWord s r a=s.mem t (ptEntry a) := by
  have hl := @lookup_of_walk h ⟨s,roots⟩ lay r a t hr ha hw
  rw [leafWord,hl]

theorem leafWord_of_none (hw : walk s.mem r (pathOf a)=none) : leafWord s r a = .ofRaw 0 := by
  cases hl : mmuGetPageOther r a s with
  | none => rw [leafWord,hl]
  | some x =>
    rw [(mmuGetPageOther_eq_some_iff.1 hl).1] at hw
    cases hw

/-- Empty tables come in; what was there stays as it is. -/
structure Grows (roots : List Nat) (h : Held) (s s' : MMU) : Prop where
  inv : AddressSpaces roots h s'
  walk : ∀ r p t, r∈roots → TablePath p → walk s.mem r p=some t → walk s'.mem r p=some t
  page : ∀ r p l, view roots h.frames s' (.page r p l)=view roots h.frames s (.page r p l)
  leaf : ∀ r a, r∈roots → pml4Entry a<256 → leafWord s' r a=leafWord s r a
  data : ∀ f, (f < s.nframes → s.Used f) → Loose roots h s f → s'.mem f=s.mem f ∧ Loose roots h s' f
  refs : s'.refs=s.refs
  used : ∀ f, s.Used f → s'.Used f
  nframes : s'.nframes=s.nframes

private theorem Grows.refl (inv : AddressSpaces roots h s) : Grows roots h s s :=
  ⟨inv,fun _ _ _ _ _ hw => hw,fun _ _ _ => rfl,fun _ _ _ _ => rfl,fun _ _ hf => ⟨rfl,hf⟩,rfl,
    fun _ hf => hf,rfl⟩

private theorem Grows.trans (h1 : Grows roots h s s') (h2 : Grows roots h s' s'') :
    Grows roots h s s'' := by
  constructor
  case inv => exact h2.inv
  case walk =>
    intro r p t hr hp hw
    exact h2.walk r p t hr hp (h1.walk r p t hr hp hw)
  case page =>
    intro r p l
    rw [h2.page,h1.page]
  case leaf =>
    intro r a hr ha
    rw [h2.leaf r a hr ha,h1.leaf r a hr ha]
  case data =>
    intro f hu hf
    have h₁data := h1.data f hu hf
    have hu1 : f < s'.nframes → s'.Used f := fun hlt => h1.used f (hu (h1.nframes ▸ hlt))
    have h₂data := h2.data f hu1 h₁data.2
    exact ⟨h₂data.1.trans h₁data.1,h₂data.2⟩
  case refs => exact h2.refs.trans h1.refs
  case used => exact fun f hf => h2.used f (h1.used f hf)
  case nframes => exact h2.nframes.trans h1.nframes

private theorem NewTable.grows (hne : NewTable roots h r t i p new s s')
    (inv : AddressSpaces roots h s)
    (hr : r∈roots) (hp : TablePath (i::p)) (hw : walk s.mem r p=some t)
    (hab : walk s.mem r (i::p)=none) : Grows roots h s s' := by
  have hs : ∀ r' p' u, r' ∈ roots → TablePath p' → walk s.mem r' p' = some u →
      walk s'.mem r' p' = some u := by
    intro r' p' u hr' hp' hw'
    have hpl : Place.table r' p' ≠ .table r (i::p) := by
      rintro ⟨⟩
      rw [hab] at hw'
      cases hw'
    apply walk_of_view
    rw [hne.view,update_of_ne hpl]
    exact view_table hr' hp' hw'
  have hc : ∀ r' p' u, r' ∈ roots → TablePath p' → walk s'.mem r' p' = some u →
      walk s.mem r' p' = some u ∨ u=new := by
    intro r' p' u hr' hp' hw'
    have hv : Kernel.view roots h.frames s' (.table r' p')=some (.sole u) := view_table hr' hp' hw'
    rw [hne.view] at hv
    by_cases hpl : Place.table r' p' = .table r (i::p)
    · rw [hpl,update_self] at hv
      cases hv
      exact .inr rfl
    · rw [update_of_ne hpl] at hv
      exact .inl (walk_of_view hv)
  have hn : new < s.nframes := by
    rw [← hne.nframes]
    exact ((hne.used new).2 (.inr rfl)).1
  constructor
  case inv => exact hne.inv
  case walk => exact hs
  case page =>
    intro r' p' l
    rw [hne.view,update_of_ne (by simp)]
  case leaf =>
    intro r' a hr' ha
    have hpa := pagePath_pathOf ha
    cases hwa : walk s.mem r' (pathOf a) with
    | some u =>
      have hun : u≠new := fun hu => hne.fresh (hu ▸ inv.table_used hr' hpa.1 hwa)
      have hsl : u≠t := by
        rintro rfl
        have hpat := (inv.table_inj hr hp.1 hw hr' hpa.1 hwa).2
        have hlen := hp.2.1
        rw [← hpat] at hlen
        exact absurd hlen (by simp [pathOf])
      rw [leafWord_of_walk hne.inv.toLayout hr' ha (hs r' _ u hr' hpa.1 hwa),
        leafWord_of_walk inv.toLayout hr' ha hwa,hne.mem u _ hun (.inl hsl)]
    | none =>
      rw [leafWord_of_none hwa]
      cases hwa' : walk s'.mem r' (pathOf a) with
      | none => rw [leafWord_of_none hwa']
      | some u =>
        rcases hc r' _ u hr' hpa.1 hwa' with hwu | rfl
        · rw [hwa] at hwu
          cases hwu
        · rw [leafWord_of_walk hne.inv.toLayout hr' ha hwa',hne.empty]
  case data =>
    intro f hus hf
    have hfne : f≠new := by
      rintro rfl
      exact hne.fresh (hus hn)
    have hft : f≠t := by
      rintro rfl
      exact hf.table r p hr hp.1 hw
    refine ⟨?_,?_,hf.kernel⟩
    · funext j
      exact hne.mem f j hfne (.inl hft)
    intro r' p' hr' hp' hw'
    rcases hc r' p' f hr' hp' hw' with hwf | hfn
    · exact hf.table r' p' hr' hp' hwf
    · exact hfne hfn
  case refs => exact hne.refs
  case used => exact fun f hf => (hne.used f).2 (.inl hf)
  case nframes => exact hne.nframes

private theorem ensureEntry_true_spec (inv : AddressSpaces roots h s) (hr : r∈roots)
    (hp : TablePath (i::p)) (hw : walk s.mem r p=some t)
    (hok : ensureEntry true t i s = .ok (found, s')) :
    found=true ∧ Grows roots h s s' ∧ walk s'.mem r p=some t ∧
      walk s'.mem r (i::p)=some (s'.mem t i).frame ∧ (s'.mem t i).size=false := by
  have hgo : found=true ∧ Grows roots h s s' ∧ (s'.mem t i).present=true := by
    unfold ensureEntry at hok
    split at hok
    · rename_i ha
      obtain ⟨⟨new,s1⟩,hd,hok⟩ := bind_eq_ok.1 hok
      cases hok
      have hn : walk s.mem r (i::p)=none := by
        rw [walk_cons hw,if_neg (by simpa using ha)]
      have hne := newDirectory_spec inv hr hp hw hn hd
      exact ⟨rfl,hne.grows inv hr hp hw hn,by simp [hne.entry]⟩
    · rename_i hpr
      cases hok
      exact ⟨rfl,.refl inv,by simpa using hpr⟩
  obtain ⟨hf,hg,hpr⟩ := hgo
  have hw' := hg.walk r p t hr hp.1 hw
  refine ⟨hf,hg,hw',?_,(hg.inv.directory r p t i hr hp hw' hpr).1⟩
  rw [walk_cons hw',if_pos hpr]

theorem mmuGetPage_true_spec (inv : AddressSpaces roots h s) (hr : r∈roots)
    (ha : pml4Entry a<256) (hok : mmuGetPage r a true s = .ok (page, s')) :
    Grows roots h s s' ∧ ∃ t, page=some (t, ptEntry a) ∧ walk s'.mem r (pathOf a)=some t := by
  have hp := (pagePath_pathOf ha).1
  obtain ⟨⟨found,s1⟩,he,hok⟩ := bind_eq_ok.1 hok
  obtain ⟨rfl,hg1,-,hpdp,-⟩ := ensureEntry_true_spec inv hr hp.1.1 rfl he
  obtain ⟨⟨found,s2⟩,he,hok⟩ := bind_eq_ok.1 hok
  obtain ⟨rfl,hg2,-,hpd,hs2⟩ := ensureEntry_true_spec hg1.inv hr hp.1 hpdp he
  simp only [hs2] at hok
  obtain ⟨⟨found,s3⟩,he,hok⟩ := bind_eq_ok.1 hok
  obtain ⟨rfl,hg3,-,hpt,hs3⟩ := ensureEntry_true_spec hg2.inv hr hp hpd he
  simp only [hs3] at hok
  obtain ⟨rfl,rfl⟩ := hok
  exact ⟨hg1.trans (hg2.trans hg3),_,rfl,hpt⟩

def userEntry (st : Machine) (r a : Nat) : Option PML :=
  let e := leafWord st.mmu r a
  if r∈st.roots ∧ a<2^47 ∧ a%pageSize=0 ∧ e.present ∧ e.user then some e else none

theorem userEntry_eq_some_iff : userEntry st r a=some e ↔ r∈st.roots ∧ a<2^47 ∧ a%pageSize=0 ∧
      leafWord st.mmu r a=e ∧ e.present=true ∧ e.user=true := by
  unfold userEntry
  dsimp only
  constructor
  · intro he
    split at he
    · rename_i hc
      cases he
      exact ⟨hc.1,hc.2.1,hc.2.2.1,rfl,hc.2.2.2⟩
    · cases he
  · rintro ⟨hr,ha,hal,rfl,hp,hu⟩
    rw [if_pos ⟨hr,ha,hal,hp,hu⟩]

/-- The entry for a page has nothing, or a page of its own. An unmap leaves the number of the frame,
a fork leaves pages that others map too. -/
def Mappable (s : MMU) (r a : Nat) : Prop :=
  let e := leafWord s r a
  e.cowPending=false ∧ (e.page.toNat=0 ∧ (e.present=true → e.user=false) ∨
      e.page.toNat≠0 ∧ e.present=true ∧ e.user=true ∧ ¬ IsShared a ∧ s.refs e.page.toNat=0)

instance (s : MMU) (r a : Nat) : Decidable (Mappable s r a) :=
  inferInstanceAs (Decidable (_ ∧ _))

/-- The page at `a` is mapped to a frame that no other user page is in, and the other pages are as
they were. -/
structure Maps (roots : List Nat) (r a : Nat) (s s' : MMU) : Prop where
  entry : ∃ e, userEntry ⟨s',roots⟩ r a=some e ∧ s'.Used e.page.toNat ∧
    ∀ r' a' e', (r', a')≠(r, a) → userEntry ⟨s,roots⟩ r' a' = some e' → e'.page.toNat≠e.page.toNat
  leaf : ∀ r' a', r' ∈ roots → a' < 2^47 → a'%pageSize=0 → (r', a')≠(r, a) →
    leafWord s' r' a' = leafWord s r' a'
  content : ∀ r' a' e', (r', a')≠(r, a) → userEntry ⟨s,roots⟩ r' a' = some e' →
    s'.mem e'.page.toNat=s.mem e'.page.toNat
  refs : s'.refs=s.refs
  used : ∀ f, s.Used f → s'.Used f

section
variable (inv : AddressSpaces roots h s)
include inv

theorem AddressSpaces.userEntry_cases (he : userEntry ⟨s,roots⟩ r a=some e) :
    view roots h.frames s (placeOf (r, a))=some ⟨e.page.toNat,e.writable,e.cowPending⟩ ∨
      e.page.toNat∈h.window := by
  obtain ⟨hr,ha,-,rfl,hpr,hu⟩ := userEntry_eq_some_iff.1 he
  have hl := pml4Entry_lt_of_user ha
  have hp := pagePath_pathOf hl
  cases hw : walk s.mem r (pathOf a) with
  | none =>
    rw [leafWord_of_none hw] at hpr
    cases hpr
  | some t =>
    rw [leafWord_of_walk inv.toLayout hr hl hw] at hpr hu ⊢
    by_cases hs : IsShared (pathAddress (pathOf a) (ptEntry a))
    · exact .inr (inv.window r _ t _ hr hp hs hw hpr hu)
    · exact .inl ((view_page hr hp hs hw).trans (leafMapping_of_user hpr hu))

theorem AddressSpaces.userEntry_frame (he : userEntry ⟨s,roots⟩ r a=some e) :
    (e.page.toNat < s.nframes → s.Used e.page.toNat) ∧ Loose roots h s e.page.toNat := by
  rcases inv.userEntry_cases he with hv | hw
  · exact ⟨fun _ => inv.sharing.marked _ _ hv,inv.loose_of_page hv⟩
  have hh : e.page.toNat∈h.frames := List.mem_append_right _ hw
  exact ⟨fun hlt => inv.sharing.marked _ _ (view_held roots hh hlt),inv.loose_of_window hw⟩

private theorem AddressSpaces.userEntry_sole (ha : a<2^47) (hal : a%pageSize=0)
    (hm : view roots h.frames s (placeOf (r, a))=some m) (hr : s.refs m.frame=0)
    (hne : (r', a')≠(r, a)) (he' : userEntry ⟨s,roots⟩ r' a' = some e') :
    e'.page.toNat≠m.frame := by
  intro hf
  rcases inv.userEntry_cases he' with hv | hw
  · have hp := inv.sharing.place_eq hm hv hf.symm hr
    obtain ⟨-,ha',hal',-⟩ := userEntry_eq_some_iff.1 he'
    exact hne (placeOf_inj ha hal ha' hal' hp).symm
  · rw [hf] at hw
    have hh : m.frame∈h.frames := List.mem_append_right _ hw
    have hv := view_held roots hh (inv.sharing.marked _ _ hm).1
    cases inv.sharing.place_eq hm hv rfl hr

private theorem Edit.leafWord_eq (ed : Edit roots h s s' r (pathOf a) t (ptEntry a) [g])
    (lay : Layout roots h' s') (ha : a<2^47) (hal : a%pageSize=0) (hr' : r' ∈ roots)
    (ha' : a' < 2^47) (hal' : a'%pageSize=0) (hne : (r', a')≠(r, a)) :
    leafWord s' r' a' = leafWord s r' a' := by
  have hl' := pml4Entry_lt_of_user ha'
  have hp := pagePath_pathOf (pml4Entry_lt_of_user ha)
  have hp' := pagePath_pathOf hl'
  have hwa := ed.walk_eq inv hr' hp'.1 fun hin => hp.not_suffix hp'.1 hin.2
  cases hw : walk s.mem r' (pathOf a') with
  | none => rw [leafWord_of_none hw,leafWord_of_none (hwa.trans hw)]
  | some u =>
    rw [leafWord_of_walk lay hr' hl' (hwa.trans hw),leafWord_of_walk inv.toLayout hr' hl' hw]
    apply ed.mem_table hr' hp'.1 hw
    by_contra hs
    obtain ⟨rfl,hi⟩ : u=t ∧ ptEntry a' = ptEntry a := by omega
    obtain ⟨rfl,hpa⟩ := inv.table_inj ed.root ed.path ed.table hr' hp'.1 hw
    refine hne (placeOf_inj ha' hal' ha hal ?_)
    simp [placeOf,hpa,hi]

theorem Maps.of_edit (hg : Grows roots h s s1)
    (ed : Edit roots h s1 s' r (pathOf a) t (ptEntry a) [e.page.toNat])
    (inv' : AddressSpaces roots h' s') (ha : a<2^47) (hal : a%pageSize=0)
    (hen : s'.mem t (ptEntry a)=e) (hpr : e.present=true) (hus : e.user=true)
    (ho : ∀ r' a' e', (r', a')≠(r, a) → userEntry ⟨s,roots⟩ r' a' = some e' →
      e'.page.toNat≠e.page.toNat) (hre : s'.refs=s1.refs) (hu : ∀ f, s1.Used f → s'.Used f)
    (hn : s'.Used e.page.toNat) : Maps roots r a s s' := by
  have hlo := pml4Entry_lt_of_user ha
  have hp := pagePath_pathOf hlo
  constructor
  case entry =>
    have hw : walk s'.mem r (pathOf a)=some t := by
      rw [ed.walk_eq hg.inv ed.root hp.1 fun hin => hp.not_suffix hp.1 hin.2,ed.table]
    refine ⟨e,userEntry_eq_some_iff.2 ⟨ed.root,ha,hal,?_,hpr,hus⟩,hn,ho⟩
    exact (leafWord_of_walk inv'.toLayout ed.root hlo hw).trans hen
  case leaf =>
    intro r' a' hr' ha' hal' hne
    rw [ed.leafWord_eq hg.inv inv'.toLayout ha hal hr' ha' hal' hne,
      hg.leaf r' a' hr' (pml4Entry_lt_of_user ha')]
  case content =>
    intro r' a' e' hne he'
    obtain ⟨hm,hl⟩ := inv.userEntry_frame he'
    obtain ⟨hmem,hl1⟩ := hg.data _ hm hl
    rw [← hmem]
    funext i
    apply ed.mem
    · simpa using ho r' a' e' hne he'
    left
    rintro rfl
    exact hl1.table r _ ed.root hp.1 ed.table
  case refs => exact hre.trans hg.refs
  case used => exact fun f hf => hu f (hg.used f hf)

end

private theorem mmuFlags_kernel : (mmuFlags prot &&& mmuFlagKernel == 0)=true := by
  unfold mmuFlags
  split <;> split <;> rfl

theorem withFlags_mmuFlags (e : PML) :
    (e.withFlags (mmuFlags prot)).user=true ∧ (e.withFlags (mmuFlags prot)).present=true ∧
      (e.withFlags (mmuFlags prot)).cowPending=e.cowPending :=
  ⟨mmuFlags_kernel,rfl,rfl⟩

/-- An entry is written to a table and the frame it names is filled. -/
structure Fills (s : MMU) (t l : Nat) (e : PML) (g : Nat) (s' : MMU) : Prop where
  mem : ∀ u i, u∉[g] → u≠t ∨ i≠l → s'.mem u i=s.mem u i
  entry : s'.mem t l=e
  nframes : s'.nframes=s.nframes
  refs : s'.refs=s.refs
  used : s'.Used=s.Used

theorem fills_of_eq (htg : t≠g) (hs' : s' = (s.setEntry t l e).setFrame g word) :
    Fills s t l e g s' := by
  subst hs'
  refine ⟨fun u i hu hsl => ?_,?_,rfl,?_,rfl⟩
  · rw [setFrame_mem,if_neg (by simpa using hu),setEntry_mem,if_neg (by omega)]
  · rw [setFrame_mem,if_neg htg,setEntry_mem]
    simp
  · rw [setFrame_refs,setEntry_refs]

/-- Nobody counts the mappings of a frame in the shared window: it is held from now on. -/
theorem map_fresh_shared (inv : AddressSpaces roots h s1) (hr : r∈roots)
    (hp : PagePath (pathOf a) (ptEntry a)) (hw : walk s1.mem r (pathOf a)=some t)
    (hs : IsShared (pathAddress (pathOf a) (ptEntry a))) (ha : Allocates s1 g s2)
    (hf : Fills s2 t (ptEntry a) e g s') (hpa : e.page.toNat=g)
    (hc : e.cowPending=false) : ∃ h', AddressSpaces roots h' s' := by
  obtain ⟨h2,hh,inv2⟩ : ∃ h2, g∈h2.window ∧ AddressSpaces roots h2 s2 :=
    ⟨_,List.mem_cons_self,inv.hold_fresh ha.lt ha.fresh ha.mem ha.nframes ha.refs ha.used⟩
  have hl2 := inv2.loose_of_window hh
  have ed2 : Edit roots h2 s2 s' r (pathOf a) t (ptEntry a) [g] := by
    refine ⟨hr,hp.1,?_,.inr (.inl hp.ne_nil),by simpa using hl2,hf.mem,hf.nframes⟩
    rw [ha.mem,hw]
  refine ⟨h2,inv2.edit_page ed2 hp ?_ ?_ ?_⟩
  · intro _ _
    rw [hf.entry,hc]
  · intro _ _ _
    rw [hf.entry,hpa]
    exact hh
  · rw [pageMapping,update_eq_self_iff.2 (by simp [view, hs]),hf.refs,hf.used]
    exact inv2.sharing

private theorem map_fresh_page (inv : AddressSpaces roots h s) (hr : r∈roots) (ha : a<2^47)
    (hali : a%pageSize=0) (hg : Grows roots h s s1)
    (hw : walk s1.mem r (pathOf a)=some t) (hc : (s1.mem t (ptEntry a)).cowPending=false)
    (hv : (s1.mem t (ptEntry a)).present=true → (s1.mem t (ptEntry a)).user=false)
    (hal : Allocates s1 g s2)
    (he : e = { s1.mem t (ptEntry a) with page := BitVec.ofNat 28 g }.withFlags (mmuFlags prot))
    (hs' : s' = (s2.setEntry t (ptEntry a) e).setFrame g word) :
    (∃ h', AddressSpaces roots h' s') ∧ Maps roots r a s s' := by
  have hp := pagePath_pathOf (pml4Entry_lt_of_user ha)
  have inv1 := hg.inv
  have hpa : e.page.toNat=g := by
    rw [he]
    exact ofNat_page hal.lt
  obtain ⟨huse,hpr,hec⟩ := withFlags_mmuFlags
    { s1.mem t _ with page := BitVec.ofNat 28 g }
  rw [← he] at huse hpr hec
  replace hec := hec.trans hc
  have hl := inv1.loose_of_unused hal.lt hal.fresh
  have htg : t≠g := fun htg => hal.fresh (htg ▸ inv1.table_used hr hp.1 hw)
  have hfi := fills_of_eq htg hs'
  have hen := hfi.entry
  have hmem : ∀ u i, u∉[g] → u≠t ∨ i≠ptEntry a → s'.mem u i=s1.mem u i := by
    intro u i hu hsl
    rw [hfi.mem u i hu hsl,hal.mem]
  have hnf := hfi.nframes.trans hal.nframes
  have hre := hfi.refs.trans hal.refs
  have hus : ∀ f, s'.Used f ↔ s1.Used f ∨ f=g := by
    rw [hfi.used]
    exact hal.used
  have ed : Edit roots h s1 s' r (pathOf a) t (ptEntry a) [e.page.toNat] := by
    rw [hpa]
    exact ⟨hr,hp.1,hw,.inr (.inl hp.ne_nil),by simpa using hl,hmem,hnf⟩
  have hinv : ∃ h', AddressSpaces roots h' s' := by
    by_cases hs : IsShared (pathAddress (pathOf a) (ptEntry a))
    · exact map_fresh_shared inv1 hr hp hw hs hal hfi hpa hec
    have hn : view roots h.frames s1 (.page r (pathOf a) (ptEntry a))=none := by
      rw [view_page hr hp hs hw,leafMapping,if_neg]
      intro hb
      rw [hv hb.1] at hb
      exact absurd hb.2 (by simp)
    have hle : leafMapping (s'.mem t (ptEntry a))=some ⟨g,e.writable,false⟩ := by
      rw [hen,leafMapping_of_user hpr huse,hpa,hec]
    have hse := inv1.set_page hr hp hs hw (by simpa using hl) hmem hnf (fun _ _ => by rw [hen,hec])
      (by
        rw [hle,hre]
        exact inv1.sharing.map_fresh hn hal.fresh _ hus)
    exact ⟨h,hse.1⟩
  refine ⟨hinv,?_⟩
  obtain ⟨h',inv'⟩ := hinv
  refine Maps.of_edit inv hg ed inv' ha hali hen hpr huse ?_ hre
    (fun f hf => (hus f).2 (.inl hf)) ((hus _).2 (.inr hpa))
  intro r' a' e' _ he' hfr
  have hm := (inv.userEntry_frame he').1
  rw [hfr,hpa] at hm
  exact hal.fresh (hg.used g (hm (hg.nframes ▸ hal.lt)))

private theorem map_own_page (inv : AddressSpaces roots h s) (hr : r∈roots) (ha : a<2^47)
    (hal : a%pageSize=0) (hg : Grows roots h s s1)
    (hw : walk s1.mem r (pathOf a)=some t) (hc : (s1.mem t (ptEntry a)).cowPending=false)
    (hpr1 : (s1.mem t (ptEntry a)).present=true)
    (hu1 : (s1.mem t (ptEntry a)).user=true) (hs : ¬ IsShared a)
    (hz : s.refs (s1.mem t (ptEntry a)).page.toNat=0)
    (he : e=(s1.mem t (ptEntry a)).withFlags (mmuFlags prot))
    (hs' : s' = (s1.setEntry t (ptEntry a) e).setFrame e.page.toNat word) :
    (∃ h', AddressSpaces roots h' s') ∧ Maps roots r a s s' := by
  have hp := pagePath_pathOf (pml4Entry_lt_of_user ha)
  have inv1 := hg.inv
  have hpri : ¬ IsShared (pathAddress (pathOf a) (ptEntry a)) := by
    rwa [pathAddress_of_aligned ha hal]
  have hpa : e.page=(s1.mem t (ptEntry a)).page := by
    rw [he]
    rfl
  obtain ⟨hu,hpr,hec⟩ := withFlags_mmuFlags _
  rw [← he] at hu hpr hec
  replace hec := hec.trans hc
  have hv1 : view roots h.frames s1 (.page r (pathOf a) (ptEntry a))=some
      ⟨e.page.toNat,(s1.mem t (ptEntry a)).writable,(s1.mem t (ptEntry a)).cowPending⟩ := by
    rw [view_page hr hp hpri hw,leafMapping_of_user hpr1 hu1,hpa]
  rw [← hpa] at hz
  have hz1 : s1.refs e.page.toNat=0 := by
    rw [hg.refs]
    exact hz
  have hl := inv1.loose_of_page hv1
  have htg : t≠e.page.toNat := by
    intro htg
    exact hl.table r _ hr hp.1 (htg ▸ hw)
  obtain ⟨hmem,hen,hn,hre,hus⟩ := fills_of_eq htg hs'
  have hle : leafMapping (s'.mem t (ptEntry a))=some ⟨e.page.toNat,e.writable,false⟩ := by
    rw [hen,leafMapping_of_user hpr hu,hec]
  have hse := inv1.set_page hr hp hpri hw (by simpa using hl) hmem hn (fun _ _ => by rw [hen,hec])
    (by
      rw [hle,hre,hus]
      exact inv1.sharing.remap_sole hv1 hz1 e.writable)
  have ed : Edit roots h s1 s' r (pathOf a) t (ptEntry a) [e.page.toNat] :=
    ⟨hr,hp.1,hw,.inr (.inl hp.ne_nil),by simpa using hl,hmem,hn⟩
  refine ⟨⟨h,hse.1⟩,?_⟩
  refine Maps.of_edit inv hg ed hse.1 ha hal hen hpr hu ?_ hre
    (fun f hf => hus ▸ hf) (hus ▸ inv1.sharing.marked _ _ hv1)
  have hv := (hg.page r _ (ptEntry a)).symm.trans hv1
  intro r' a' e' hne he'
  exact inv.userEntry_sole ha hal hv hz hne he'

private theorem mmuFrameAllocate_eq_ok (hok : mmuFrameAllocate t l flags s = .ok s') :
    ∃ e, s'.mem t l=e ∧ ((s.mem t l).page=0 ∧ (∃ g s1, Allocates s g s1 ∧ s' = s1.setEntry t l e ∧
          e = { s.mem t l with page := BitVec.ofNat 28 g }.withFlags flags) ∨
        (s.mem t l).page≠0 ∧ s' = s.setEntry t l e ∧ e=(s.mem t l).withFlags flags) := by
  unfold mmuFrameAllocate at hok
  split at hok
  · rename_i hz
    obtain ⟨⟨g,s1⟩,ha,hok⟩ := bind_eq_ok.1 hok
    have ha := mmuAllocateAFrame_spec ha
    obtain rfl := Except.ok.inj hok
    refine ⟨_,rfl,.inl ⟨hz,g,s1,ha,?_,?_⟩⟩ <;>
      simp [setEntry_mem,ha.mem]
  · rename_i hpos
    obtain rfl := Except.ok.inj hok
    refine ⟨_,rfl,.inr ⟨hpos,?_,?_⟩⟩ <;> simp [setEntry_mem]

theorem mapPage_spec (inv : AddressSpaces roots h s) (hr : r∈roots) (ha : a<2^47)
    (hal : a%pageSize=0) (hm : Mappable s r a) (hok : mapPage r (mmuFlags prot) fill a s = .ok s') :
    (∃ h', AddressSpaces roots h' s') ∧ Maps roots r a s s' := by
  have hlo := pml4Entry_lt_of_user ha
  obtain ⟨⟨page,s1⟩,hge,hok⟩ := bind_eq_ok.1 hok
  obtain ⟨hg,t,rfl,hw⟩ := mmuGetPage_true_spec inv hr hlo hge
  obtain ⟨-,-,hok⟩ := bind_eq_ok.1 hok
  obtain ⟨s2,hall,hok⟩ := bind_eq_ok.1 hok
  have hs' := (Except.ok.inj hok).symm
  have hl : leafWord s r a=s1.mem t (ptEntry a) := by
    rw [← hg.leaf r a hr hlo,leafWord_of_walk hg.inv.toLayout hr hlo hw]
  simp only [Mappable,hl] at hm
  obtain ⟨hco,hc⟩ := hm
  obtain ⟨e,hen,hn | hk⟩ := mmuFrameAllocate_eq_ok hall
  · obtain ⟨hz,g,s3,hf,rfl,he⟩ := hn
    have hv := hc.resolve_right fun ho => ho.1 (by rw [hz]; rfl)
    have hp : e.page.toNat=g := by
      rw [he]
      exact ofNat_page hf.lt
    rw [hen,hp,mmuMapFromPhysical_of_lt hf.lt] at hs'
    exact map_fresh_page inv hr ha hal hg hw hco hv.2 hf he hs'
  · obtain ⟨hpos,rfl,he⟩ := hk
    have ho := hc.resolve_left fun hv => hpos (BitVec.eq_of_toNat_eq hv.1)
    have hvi1 : view roots h.frames s1 (.page r (pathOf a) (ptEntry a))=_ :=
      (view_page hr (pagePath_pathOf hlo)
        (by rw [pathAddress_of_aligned ha hal]; exact ho.2.2.2.1) hw).trans
        (leafMapping_of_user ho.2.1 ho.2.2.1)
    have hlt : e.page.toNat < s1.nframes := by
      rw [he]
      exact (hg.inv.sharing.marked _ _ hvi1).1
    rw [hen,mmuMapFromPhysical_of_lt hlt] at hs'
    exact map_own_page inv hr ha hal hg hw hco ho.2.1 ho.2.2.1 ho.2.2.2.1 ho.2.2.2.2 he hs'
end RazionOS.Kernel
