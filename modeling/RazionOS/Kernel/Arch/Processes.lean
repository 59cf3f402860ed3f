import RazionOS.Kernel.Arch.Lifecycle

/-! # Processes on shared frames -/

namespace RazionOS.Kernel
open Framework Option Prod

structure Machine where
  mmu : MMU
  roots : List Nat

inductive Op where
  | clone (r : Nat)
  | writeFault (r address : Nat)
  | munmap (r address length : Nat)
  | teardown (r : Nat)
  | store (r address : Nat) (word : PML)

/-- Whether the processor finds a page for the address, large pages included. -/
def translates (r a : Nat) (s : MMU) : Bool :=
  let pml4e := s.mem r (pml4Entry a)
  let pdpe := s.mem pml4e.frame (pdpEntry a)
  let pde := s.mem pdpe.frame (pdEntry a)
  let pte := s.mem pde.frame (ptEntry a)
  pml4e.present && pdpe.present && (pdpe.size || pde.present && (pde.size || pte.present))

/-- A write to a present page that the process may not write. -/
def writeFault (r address : Nat) (s : MMU) : Except Fatal MMU :=
  if translates r address s then do
    let (_, s) ← mmuCopyOnWrite r address s
    return s
  else .ok s

/-- A store by user code, which has effect on a writable user page only. -/
def userStore (r address : Nat) (word : PML) (s : MMU) : MMU :=
  if address<2^47 then
    match mmuGetPageOther r address s with
    | none => s
    | some (t, l) =>
      if (s.mem t l).present && (s.mem t l).user && (s.mem t l).writable then
        s.setEntry (s.mem t l).page.toNat (address%pageSize/8) word
      else s
  else s

def step (op : Op) (st : Machine) : Except Fatal Machine :=
  match op with
  | .clone r =>
    if r∈st.roots then do
      let (new, mmu) ← mmuClone r st.mmu
      return { mmu, roots := new::st.roots }
    else .ok st
  | .writeFault r address =>
    if r∈st.roots then do
      let mmu ← writeFault r address st.mmu
      return { st with mmu }
    else .ok st
  | .munmap r address length =>
    if r∈st.roots then do
      let (_, mmu) ← sysMunmap r address length st.mmu
      return { st with mmu }
    else .ok st
  | .teardown r =>
    if r∈st.roots then do
      let mmu ← mmuFree r st.mmu
      return { mmu, roots := st.roots.filter (· ≠ r) }
    else .ok st
  | .store r address word =>
    if r∈st.roots then .ok { st with mmu := userStore r address word st.mmu } else .ok st

/-- Unmaps stay within the user half, and tables in the first two gigabytes. -/
def UserHalf (st : Machine) : Op → Prop
  | .munmap r address length => address+length≤2^47 ∧ LowTables st.mmu r
  | _ => True

inductive Runs (ok : Machine → Op → Prop) (st : Machine) : Machine → Prop
  | refl : Runs ok st st
  | step (run : Runs ok st st1) (hop : ok st1 op)
    (hstep : step op st1 = .ok st2) : Runs ok st st2

def privateEntry (st : Machine) (r a : Nat) : Option PML :=
  if r∈st.roots ∧ a<2^47 ∧ a%pageSize=0 ∧ ¬ IsShared a then
    (mmuGetPageOther r a st.mmu).bind fun (t, l) =>
      if (st.mmu.mem t l).present && (st.mmu.mem t l).user then some (st.mmu.mem t l) else none
  else none

def mappings (st : Machine) (f : Nat) : Set (Nat × Nat) :=
  {x | ∃ e, privateEntry st x.1 x.2=some e ∧ e.page.toNat=f}

def readWord (st : Machine) (r a w : Nat) : Option PML :=
  (privateEntry st r a).map fun e => st.mmu.mem e.page.toNat w

/-- Every private frame is mapped once and has no references yet. -/
structure Start (h : Held) (st : Machine) : Prop extends Layout st.roots h st.mmu where
  used : ∀ x m, view st.roots h.frames st.mmu x=some m → st.mmu.Used m.frame
  once : ∀ x y m m', view st.roots h.frames st.mmu x=some m →
    view st.roots h.frames st.mmu y=some m' → m.frame=m'.frame → x=y
  refs : ∀ f, st.mmu.refs f=0
  settled : ∀ x m, view st.roots h.frames st.mmu x=some m → m.cow=false

structure Accounted (st : Machine) : Prop where
  used : ∀ r a e, privateEntry st r a=some e → st.mmu.Used e.page.toNat
  shared : ∀ f, st.mmu.refs f≠0 → (mappings st f).encard=st.mmu.refs f ∧
    ∀ r a e, privateEntry st r a=some e → e.page.toNat=f → e.writable=false
  sole : ∀ r a e, privateEntry st r a=some e → st.mmu.refs e.page.toNat=0 →
    mappings st e.page.toNat = {(r, a)}

def placeOf (x : Nat × Nat) : Place := .page x.1 (pathOf x.2) (ptEntry x.2)

theorem pml4Entry_lt_of_user (ha : a<2^47) : pml4Entry a<256 := by
  unfold pml4Entry pageAddr pageSize
  omega

theorem pathAddress_of_aligned (ha : a<2^47) (hal : a%pageSize=0) :
    pathAddress (pathOf a) (ptEntry a)=a := by
  rw [pathAddress_pathOf]
  unfold pageSize at *
  omega

private theorem exists_address (hp : PagePath p l) :
    pathAddress p l<2^47 ∧ pathAddress p l % pageSize=0 ∧ pathOf (pathAddress p l)=p ∧
      ptEntry (pathAddress p l)=l := by
  obtain ⟨htp,hlen,hl⟩ := hp
  obtain ⟨k,j,i,rfl⟩ := List.length_eq_three.1 hlen
  obtain ⟨⟨⟨-,-,hi⟩,-,hj⟩,-,hk⟩ := htp
  simp only [fanout] at hi hj hk
  simp only [pathAddress,addressOf,pathOf,pml4Entry,pdpEntry,pdEntry,ptEntry,pageAddr,pageSize,
    List.cons.injEq,and_true]
  omega

section Entries
variable {st : Machine} (lay : Layout st.roots h st.mmu)
include lay

theorem lookup_of_walk (hr : r∈st.roots) (ha : pml4Entry a<256)
    (hw : walk st.mmu.mem r (pathOf a)=some t) :
    mmuGetPageOther r a st.mmu=some (t, ptEntry a) := by
  obtain ⟨h1,h2,h3,-⟩ := walk_pathOf.1 hw
  have hp := (pagePath_pathOf ha).1
  have hpdp : walk st.mmu.mem r [pml4Entry a]=some (st.mmu.mem r (pml4Entry a)).frame := by
    simp [walk,h1]
  have hpd : walk st.mmu.mem r [pdpEntry a, pml4Entry a] =
      some (st.mmu.mem (st.mmu.mem r (pml4Entry a)).frame (pdpEntry a)).frame := by
    rw [walk_cons hpdp,if_pos h2]
  exact mmuGetPageOther_eq_some_iff.2 ⟨hw,rfl,
    (lay.directory r _ _ _ hr hp.1 hpdp h2).1,(lay.directory r _ _ _ hr hp hpd h3).1⟩

theorem privateEntry_eq_some_iff :
    privateEntry st r a=some e ↔ r∈st.roots ∧ a<2^47 ∧ a%pageSize=0 ∧ ¬ IsShared a ∧
      ∃ t, walk st.mmu.mem r (pathOf a)=some t ∧ e=st.mmu.mem t (ptEntry a) ∧
        e.present=true ∧ e.user=true := by
  unfold privateEntry
  split
  swap
  · rename_i hc
    constructor
    · intro he
      cases he
    · rintro ⟨hr,ha,hal,hs,-⟩
      exact absurd ⟨hr,ha,hal,hs⟩ hc
  rename_i hc
  obtain ⟨hr,ha,hal,hs⟩ := hc
  constructor
  · intro he
    obtain ⟨⟨t,l⟩,hl,he⟩ := bind_eq_some_iff.1 he
    obtain ⟨hw,rfl,-,-⟩ := mmuGetPageOther_eq_some_iff.1 hl
    dsimp only at he
    split at he
    · rename_i hpu
      cases he
      simp only [Bool.and_eq_true] at hpu
      exact ⟨hr,ha,hal,hs,t,hw,rfl,hpu.1,hpu.2⟩
    · cases he
  · rintro ⟨-,-,-,-,t,hw,rfl,hp,hu⟩
    rw [lookup_of_walk lay hr (pml4Entry_lt_of_user ha) hw]
    simp [hp,hu]

theorem view_of_privateEntry (he : privateEntry st r a=some e) :
    view st.roots h.frames st.mmu (placeOf (r, a)) =
      some ⟨e.page.toNat,e.writable,e.cowPending⟩ := by
  obtain ⟨hr,ha,hal,hs,t,hw,rfl,hp,hu⟩ := (privateEntry_eq_some_iff lay).1 he
  have hs' : ¬ IsShared (pathAddress (pathOf a) (ptEntry a)) := by
    rwa [pathAddress_of_aligned ha hal]
  exact (view_page hr (pagePath_pathOf (pml4Entry_lt_of_user ha)) hs' hw).trans
    (leafMapping_of_user hp hu)

theorem privateEntry_of_view (hm : view st.roots h.frames st.mmu (.page r p l)=some m) :
    ∃ a e, privateEntry st r a=some e ∧ placeOf (r, a) = .page r p l ∧
      m=⟨e.page.toNat,e.writable,e.cowPending⟩ := by
  simp only [view] at hm
  split at hm
  swap
  · cases hm
  rename_i hc
  obtain ⟨hr,hp,hs⟩ := hc
  obtain ⟨t,hw,hl⟩ := bind_eq_some_iff.1 hm
  obtain ⟨hpr,hu,hma⟩ := leafMapping_eq_some hl
  obtain ⟨ha,hal,hpa,hi⟩ := exists_address hp
  refine ⟨pathAddress p l,st.mmu.mem t l,?_,?_,hma⟩
  · apply (privateEntry_eq_some_iff lay).2
    refine ⟨hr,ha,hal,hs,t,?_,?_,hpr,hu⟩
    · rw [hpa,hw]
    · rw [hi]
  · simp [placeOf,hpa,hi]

omit lay in
theorem placeOf_inj (ha : a<2^47) (hal : a%pageSize=0) (ha' : a' < 2^47)
    (hal' : a'%pageSize=0) (hp : placeOf (r, a)=placeOf (r', a')) : (r, a)=(r', a') := by
  simp only [placeOf,Place.page.injEq] at hp
  obtain ⟨hr,hpa,hi⟩ := hp
  rw [mk.injEq]
  refine ⟨hr,?_⟩
  rw [← pathAddress_of_aligned ha hal,hpa,hi,pathAddress_of_aligned ha' hal']

private theorem placeOf_injOn : Set.InjOn placeOf (mappings st f) := by
  rintro ⟨r,a⟩ ⟨e,he,-⟩ ⟨r',a'⟩ ⟨e',he',-⟩ hp
  obtain ⟨-,ha,hal,-⟩ := (privateEntry_eq_some_iff lay).1 he
  obtain ⟨-,ha',hal',-⟩ := (privateEntry_eq_some_iff lay).1 he'
  exact placeOf_inj ha hal ha' hal' hp

private theorem readWord_eq (ha : a<2^47) (hal : a%pageSize=0) :
    readWord st r a w=(view st.roots h.frames st.mmu (placeOf (r, a))).map
      fun m => st.mmu.mem m.frame w := by
  unfold readWord
  cases he : privateEntry st r a with
  | some e =>
    rw [view_of_privateEntry lay he]
    rfl
  | none =>
    cases hm : view st.roots h.frames st.mmu (placeOf (r, a)) with
    | none => rfl
    | some m =>
      obtain ⟨a',e,he',hp,-⟩ := privateEntry_of_view lay hm
      obtain ⟨-,ha',hal',-⟩ := (privateEntry_eq_some_iff lay).1 he'
      cases placeOf_inj ha' hal' ha hal hp
      rw [he] at he'
      cases he'

private theorem pageMapped_iff : PageMapped st.roots h st.mmu f ↔ (mappings st f).Nonempty := by
  constructor
  · rintro ⟨r,p,l,m,hm,rfl⟩
    obtain ⟨a,e,he,-,rfl⟩ := privateEntry_of_view lay hm
    exact ⟨(r, a),e,he,rfl⟩
  · rintro ⟨⟨r,a⟩,e,he,rfl⟩
    exact ⟨r,_,_,_,view_of_privateEntry lay he,rfl⟩
end Entries

private theorem AddressSpaces.accounted (inv : AddressSpaces st.roots h st.mmu) : Accounted st := by
  have lay := inv.toLayout
  refine ⟨?_,?_,?_⟩
  · intro r a e he
    exact inv.sharing.marked _ _ (view_of_privateEntry lay he)
  · intro f hf
    constructor
    · have hi : users (view st.roots h.frames st.mmu) f=placeOf '' mappings st f := by
        ext x
        constructor
        · rintro ⟨m,hm,rfl⟩
          obtain ⟨r,p,l,rfl⟩ := inv.page_of_counted hm hf
          obtain ⟨a,e,he,hp,rfl⟩ := privateEntry_of_view lay hm
          exact ⟨(r, a),⟨e,he,rfl⟩,hp⟩
        · rintro ⟨⟨r,a⟩,⟨e,he,rfl⟩,rfl⟩
          exact ⟨_,view_of_privateEntry lay he,rfl⟩
      rw [← (placeOf_injOn lay).encard_image,← hi]
      exact inv.sharing.counted f hf
    · rintro r a e he rfl
      by_contra hw
      exact hf (inv.sharing.writable _ _ (view_of_privateEntry lay he) (by simpa using hw))
  · intro r a e he hr
    ext x
    constructor
    · rintro ⟨e',he',hf⟩
      have hp := inv.sharing.place_eq (view_of_privateEntry lay he')
        (view_of_privateEntry lay he) hf (hf ▸ hr)
      exact placeOf_injOn lay ⟨e',he',hf⟩ ⟨e,he,rfl⟩ hp
    · rintro ⟨⟩
      exact ⟨e,he,rfl⟩

theorem Start.addressSpaces (hs : Start h st) : AddressSpaces st.roots h st.mmu := by
  refine ⟨hs.toLayout,hs.used,fun _ _ _ _ => hs.refs _,?_,?_,?_⟩
  · intro x m hm hc
    rw [hs.settled x m hm] at hc
    cases hc
  · rintro f - x ⟨m,hm,rfl⟩ y ⟨m',hm',hf⟩
    exact hs.once x y m m' hm hm' hf.symm
  · intro f hf
    exact absurd (hs.refs f) hf

theorem used_iff_of_tight (inv : AddressSpaces roots h s) (inv' : AddressSpaces roots' h s')
    (hti : Tight {f | PageMapped roots h s f} (view roots' h.frames s') s'.Used)
    (ht : ∀ r p t, r∈roots' → TablePath p → walk s'.mem r p=some t →
      r∈roots ∧ walk s.mem r p=some t) (hf : PageMapped roots h s f) :
    s'.Used f ↔ PageMapped roots' h s' f := by
  constructor
  · intro hu
    obtain ⟨x,m,hm,rfl⟩ := hti f hf hu
    obtain ⟨r,p,l,m0,hm0,hfr⟩ := hf
    cases x with
    | page r' p' l' => exact ⟨r',p',l',m,hm,rfl⟩
    | table r' p' =>
      simp only [view] at hm
      split at hm
      · rename_i hc
        obtain ⟨t,hw,rfl⟩ := map_eq_some_iff.1 hm
        obtain ⟨hr,hw⟩ := ht r' p' t hc.1 hc.2 hw
        cases inv.table_place_eq hr hc.2 hw hm0 hfr
      · cases hm
    | held g =>
      simp only [view] at hm
      split at hm
      · rename_i hc
        cases hm
        have hlt := (inv.sharing.marked _ _ hm0).1
        rw [hfr] at hlt
        have hh := view_held roots hc.1 hlt
        have hre := inv.sharing.writable _ _ hh rfl
        cases inv.sharing.place_eq hm0 hh hfr (by rw [hfr]; exact hre)
      · cases hm
  · rintro ⟨r,p,l,m,hm,rfl⟩
    exact inv'.sharing.marked _ _ hm

theorem tight_pageMapped : Tight {f | PageMapped roots h s f} (view roots h.frames s) s.Used := by
  rintro f ⟨r,p,l,m,hm,rfl⟩ -
  exact ⟨_,mem_users_of_maps hm⟩

private theorem writeFault_spec (inv : AddressSpaces roots h s) (hr : r∈roots)
    (hok : writeFault r a s = .ok s') :
    AddressSpaces roots h s' ∧ ∀ f, PageMapped roots h s f → PageMapped roots h s' f := by
  unfold writeFault at hok
  split at hok
  swap
  · cases hok
    exact ⟨inv,fun _ hf => hf⟩
  rename_i ht
  obtain ⟨⟨failed,s1⟩,hco,hok⟩ := bind_eq_ok.1 hok
  cases hok
  obtain ⟨t,l,hl,hc⟩ := mmuCopyOnWrite_cases hco
  rcases hc with ⟨-,-,rfl⟩ | ⟨-,hpe,-,hd⟩
  · exact ⟨inv,fun _ hf => hf⟩
  obtain ⟨hw,rfl,hsi1,hsi2⟩ := mmuGetPageOther_eq_some_iff.1 hl
  have hpr : (s.mem t (ptEntry a)).present=true := by
    obtain ⟨-,-,-,rfl⟩ := walk_pathOf.1 hw
    simp only [translates,hsi1,hsi2,Bool.false_or,Bool.and_eq_true] at ht
    exact ht.2.2
  -- a pending copy is one of a private user page
  have hlo : pml4Entry a<256 := by
    by_contra hh
    rw [inv.kernel_lookup hr (by omega) hl hpr] at hpe
    cases hpe
  have hp := pagePath_pathOf hlo
  have hpl := inv.plain r _ t _ hr hp hw hpr
  have hu : (s.mem t (ptEntry a)).user=true := by
    by_contra hu
    rw [hpl (.inl (by simpa using hu))] at hpe
    cases hpe
  have hs : ¬ IsShared (pathAddress (pathOf a) (ptEntry a)) := by
    intro hs
    rw [hpl (.inr hs)] at hpe
    cases hpe
  exact hd.addressSpaces inv hr hp hs hw hpr hu

section
variable (a : Nat) (word : PML) (inv : AddressSpaces roots h s) (hr : r∈roots)
include a word inv hr

theorem userStore_cases : userStore r a word s=s ∨ a<2^47 ∧ ∃ f,
      userStore r a word s=s.setEntry f (a%pageSize/8) word ∧ Loose roots h s f ∧
      ∀ x m, view roots h.frames s x=some m → m.frame=f →
        x=placeOf (r, a/pageSize*pageSize) ∨ x = .held f := by
  unfold userStore
  split
  swap
  · exact .inl rfl
  rename_i ha
  split
  · exact .inl rfl
  rename_i t l hl
  split
  swap
  · exact .inl rfl
  rename_i he
  simp only [Bool.and_eq_true] at he
  obtain ⟨⟨hpr,hu⟩,hwr⟩ := he
  obtain ⟨hw,rfl,-,-⟩ := mmuGetPageOther_eq_some_iff.1 hl
  have hp := pagePath_pathOf (pml4Entry_lt_of_user ha)
  have hpl : placeOf (r, a/pageSize*pageSize) = .page r (pathOf a) (ptEntry a) := by
    have hpa : pageAddr (a/pageSize*pageSize)=pageAddr a := by
      unfold pageAddr pageSize
      omega
    simp [placeOf,pathOf,pml4Entry,pdpEntry,pdEntry,ptEntry,hpa]
  refine .inr ⟨ha,_,rfl,?_⟩
  by_cases hs : IsShared (pathAddress (pathOf a) (ptEntry a))
  · have hwi := inv.window r _ t _ hr hp hs hw hpr hu
    refine ⟨inv.loose_of_window hwi,?_⟩
    intro x m hm hf
    right
    have hin : (s.mem t (ptEntry a)).page.toNat∈h.frames := List.mem_append_right _ hwi
    have hh := view_held roots hin (hf ▸ (inv.sharing.marked x m hm).1)
    have hre := inv.sharing.writable _ _ hh rfl
    exact inv.sharing.place_eq hm hh hf (by rw [hf]; exact hre)
  · have hv : view roots h.frames s (.page r (pathOf a) (ptEntry a))=_ :=
      (view_page hr hp hs hw).trans (leafMapping_of_user hpr hu)
    refine ⟨inv.loose_of_page hv,?_⟩
    intro x m hm hf
    left
    rw [hpl]
    have hre := inv.sharing.writable _ _ hv hwr
    exact inv.sharing.place_eq hm hv hf (by rw [hf]; exact hre)

theorem userStore_spec : AddressSpaces roots h (userStore r a word s) ∧
      view roots h.frames (userStore r a word s)=view roots h.frames s := by
  rcases userStore_cases a word inv hr with heq | ⟨-,f,heq,hl,-⟩
  · rw [heq]
    exact ⟨inv,rfl⟩
  rw [heq]
  have hl' : ∀ g∈[f], Loose roots h s g := by simpa using hl
  have hmem : ∀ t, t∉[f] → (s.setEntry f (a%pageSize/8) word).mem t=s.mem t := by
    intro t ht
    funext i
    rw [MMU.setEntry_mem,if_neg]
    rintro ⟨rfl,-⟩
    simp at ht
  exact inv.edit_data hl' hmem rfl rfl fun _ hf => hf

end

theorem account_of_mapped (inv' : AddressSpaces roots' h s')
    (hma : ∀ f, PageMapped roots h s f → PageMapped roots' h s' f) :
    AddressSpaces roots' h s' ∧ ∀ f, PageMapped roots h s f →
      (s'.Used f ↔ PageMapped roots' h s' f) := by
  refine ⟨inv',fun f hf => ⟨fun _ => hma f hf,?_⟩⟩
  rintro ⟨r,p,l,m,hm,rfl⟩
  exact inv'.sharing.marked _ _ hm

theorem account_refl (inv : AddressSpaces roots h s) : AddressSpaces roots h s ∧
    ∀ f, PageMapped roots h s f → (s.Used f ↔ PageMapped roots h s f) :=
  account_of_mapped inv fun _ hf => hf

private theorem sysMunmap_account (inv : AddressSpaces roots h s) (hr : r∈roots)
    (hh : address+length≤2^47) (hl : LowTables s r)
    (hm : sysMunmap r address length s = .ok (taken, s')) :
    AddressSpaces roots h s' ∧ ∀ f, PageMapped roots h s f →
      (s'.Used f ↔ PageMapped roots h s' f) := by
  have hs := account_refl inv
  unfold sysMunmap at hm
  split at hm
  · cases hm
    exact hs
  rename_i ha
  split at hm
  · cases hm
    exact hs
  obtain ⟨s1,hu,hm⟩ := bind_eq_ok.1 hm
  cases hm
  have hre := mmuUnmapUser_spec inv tight_pageMapped hr (by simpa using ha) hh hl hu
  refine ⟨hre.inv,fun f hf => used_iff_of_tight inv hre.inv hre.tight ?_ hf⟩
  intro r' p t hr' hp hw
  exact ⟨hr',hre.shrinks r' p t hr' hp hw⟩

theorem step_spec (inv : AddressSpaces st.roots h st.mmu) (hop : UserHalf st op)
    (hs : step op st = .ok st') :
    AddressSpaces st'.roots h st'.mmu ∧ ∀ f, PageMapped st.roots h st.mmu f →
      (st'.mmu.Used f ↔ PageMapped st'.roots h st'.mmu f) := by
  have hsa := account_refl inv
  cases op with
  | clone r =>
    simp only [step] at hs
    split at hs
    · rename_i hr
      obtain ⟨⟨new,s'⟩,hc,hs⟩ := bind_eq_ok.1 hs
      cases hs
      obtain ⟨inv',hma⟩ := (mmuClone_spec inv hr).of_ok hc
      exact account_of_mapped inv' hma
    · cases hs
      exact hsa
  | writeFault r address =>
    simp only [step] at hs
    split at hs
    · rename_i hr
      obtain ⟨s',hfa,hs⟩ := bind_eq_ok.1 hs
      cases hs
      obtain ⟨inv',hma⟩ := writeFault_spec inv hr hfa
      exact account_of_mapped inv' hma
    · cases hs
      exact hsa
  | munmap r address length =>
    simp only [step] at hs
    split at hs
    · rename_i hr
      obtain ⟨⟨taken,s'⟩,hmu,hs⟩ := bind_eq_ok.1 hs
      cases hs
      exact sysMunmap_account inv hr hop.1 hop.2 hmu
    · cases hs
      exact hsa
  | teardown r =>
    simp only [step] at hs
    split at hs
    · rename_i hr
      obtain ⟨s',hfr,hs⟩ := bind_eq_ok.1 hs
      cases hs
      obtain ⟨inv',hmem,ht⟩ := mmuFree_spec inv tight_pageMapped hr hfr
      refine ⟨inv',fun f hf => used_iff_of_tight inv inv' ht ?_ hf⟩
      intro r' p t hr' _ hw
      exact ⟨(List.mem_filter.1 hr').1,hmem ▸ hw⟩
    · cases hs
      exact hsa
  | store r address word =>
    simp only [step] at hs
    split at hs
    · rename_i hr
      cases hs
      obtain ⟨inv',hv⟩ := userStore_spec address word inv hr
      apply account_of_mapped inv'
      rintro f ⟨r',p,l,m,hm,hf⟩
      exact ⟨r',p,l,m,by rw [hv]; exact hm,hf⟩
    · cases hs
      exact hsa

theorem Runs.addressSpaces (hs : Start h st) (run : Runs UserHalf st st') :
    AddressSpaces st'.roots h st'.mmu := by
  induction run with
  | refl => exact hs.addressSpaces
  | step run hop hst ih => exact (step_spec ih hop hst).1

private theorem store_readWord (inv : AddressSpaces st.roots h st.mmu)
    (hs : step (.store r a word) st = .ok st') (hne : (r', a')≠(r, a/pageSize*pageSize)) :
    readWord st' r' a' w=readWord st r' a' w := by
  simp only [step] at hs
  split at hs
  swap
  · cases hs
    rfl
  rename_i hr
  cases hs
  obtain ⟨inv',hvi⟩ := userStore_spec a word inv hr
  by_cases hv : a' < 2^47 ∧ a'%pageSize=0
  swap
  · simp only [readWord,privateEntry]
    rw [if_neg fun hc => hv ⟨hc.2.1,hc.2.2.1⟩,if_neg fun hc => hv ⟨hc.2.1,hc.2.2.1⟩]
    rfl
  have haf : readWord { st with mmu := userStore r a word st.mmu } r' a' w=_ :=
    readWord_eq inv'.toLayout hv.1 hv.2
  rw [haf,readWord_eq inv.toLayout hv.1 hv.2,hvi]
  cases hm : view st.roots h.frames st.mmu (placeOf (r', a')) with
  | none => rfl
  | some m =>
    rcases userStore_cases a word inv hr with heq | ⟨ha,f,heq,-,ho⟩
    · rw [heq]
    have hf : m.frame≠f := by
      intro hf
      rcases ho _ m hm hf with hp | hp
      · refine hne (placeOf_inj hv.1 hv.2 ?_ (Nat.mul_mod_left _ _) hp)
        unfold pageSize
        omega
      · cases hp
    simp [heq,MMU.setEntry_mem,hf]

/-- In every run whose unmaps stay within the user half, the marks and the counts agree with the
mappings, a frame is given back with its last mapping, and a store changes no private word that
another process reads. -/
theorem mmu_sharing_law {h : Held} {st st' : Machine} (hs : Start h st)
    (run : Runs UserHalf st st') :
    Accounted st' ∧ ∀ op st'', UserHalf st' op → step op st' = .ok st'' →
      (∀ f, (mappings st' f).Nonempty → (st''.mmu.Used f ↔ (mappings st'' f).Nonempty)) ∧
      ∀ r a word, op = .store r a word → ∀ r' a' w, r' ≠ r →
        readWord st'' r' a' w = readWord st' r' a' w := by
  have inv := run.addressSpaces hs
  refine ⟨inv.accounted,?_⟩
  intro op st'' hop hst
  obtain ⟨inv',hu⟩ := step_spec inv hop hst
  refine ⟨?_,?_⟩
  · intro f hf
    rw [← pageMapped_iff inv'.toLayout]
    exact hu f ((pageMapped_iff inv.toLayout).2 hf)
  · rintro r a word rfl r' a' w hne
    exact store_readWord inv hst (by simp [hne])

/-- Pages at `0x1000` and `0x2000` in the frames 512 and 5. The first word of the page at `0x1000`
looks like an entry for frame 5. -/
def twoPagesWords : List ((Nat × Nat) × PML) :=
  [((1, 0), .directory 2), ((1, 511), .ofRaw 0x6003), ((2, 0), .directory 3),
    ((3, 0), .directory 4), ((4, 1), .directory 512), ((4, 2), .directory 5),
    ((6, 0), .ofRaw 0x7003), ((7, 0), .ofRaw 0x83), ((7, 1), .ofRaw 0x200083),
    ((512, 0), .directory 5)]

def twoPages : Machine where
  roots := [1]
  mmu :=
    { nframes := 1024
      nframes_le := by decide
      frames := fun w => if w=0 then 0xff else if w=16 then 1 else 0
      lowestAvailable := 0
      memRefcounts := fun _ => 0
      mem := fun t i => (twoPagesWords.lookup (t, i)).getD (.ofRaw 0) }

def twoPagesHeld : Held := ⟨[6],[7],[],[]⟩

theorem twoPages_present (h : (twoPages.mmu.mem t i).present=true) :
    (t, i)∈twoPagesWords.map fst := by
  by_contra hno
  have hn : twoPagesWords.lookup (t, i)=none := by
    rw [List.lookup_eq_none_iff]
    intro x hx
    have : (t, i)≠x.1 := fun heq => hno (List.mem_map.2 ⟨x,hx,heq.symm⟩)
    simpa using this
  simp only [twoPages,hn] at h
  cases h

def twoPagesTables : List (List Nat × Nat) := [([], 1), ([0], 2), ([0, 0], 3), ([0, 0, 0], 4)]

theorem twoPages_walk (hp : TablePath p) (hw : walk twoPages.mmu.mem 1 p=some t) :
    (p, t)∈twoPagesTables := by
  induction p generalizing t with
  | nil =>
    cases hw
    decide
  | cons i p ih =>
    obtain ⟨u,hu,hpr,rfl⟩ := walk_cons_eq_some hw
    have hmem := ih hp.1 hu
    have hk := twoPages_present hpr
    have ha : ∀ x∈twoPagesTables, ∀ k∈twoPagesWords.map fst, k.1=x.2 →
        x.1.length<3 → k.2<fanout x.1 →
          (k.2::x.1, (twoPages.mmu.mem k.1 k.2).frame)∈twoPagesTables := by decide
    exact ha _ hmem _ hk rfl hp.2.1 hp.2.2

theorem twoPages_entry {P : List Nat × Nat → Nat × Nat → Prop}
    (ha : ∀ x∈twoPagesTables, ∀ k∈twoPagesWords.map fst, k.1=x.2 → P x k)
    (hp : TablePath p) (hw : walk twoPages.mmu.mem 1 p=some t)
    (hpr : (twoPages.mmu.mem t i).present=true) : P (p, t) (t, i) :=
  ha _ (twoPages_walk hp hw) _ (twoPages_present hpr) rfl

def twoPagesView : List (Place × Mapping Nat) :=
  [(.table 1 [], .sole 1), (.table 1 [0], .sole 2), (.table 1 [0, 0], .sole 3),
    (.table 1 [0, 0, 0], .sole 4), (.page 1 [0, 0, 0] 1, ⟨512,true,false⟩),
    (.page 1 [0, 0, 0] 2, ⟨5,true,false⟩), (.held 6, .sole 6), (.held 7, .sole 7)]

private theorem twoPages_view {x : Place} (h : view [1] twoPagesHeld.frames twoPages.mmu x=some m) :
    (x, m)∈twoPagesView := by
  cases x with
  | held f =>
    simp only [view] at h
    split at h
    · rename_i hf
      cases h
      have ha : ∀ f∈twoPagesHeld.frames, (Place.held f, Mapping.sole f)∈twoPagesView := by
        decide
      exact ha f hf.1
    · cases h
  | table r p =>
    simp only [view] at h
    split at h
    · rename_i hrp
      obtain ⟨t,hw,rfl⟩ := map_eq_some_iff.1 h
      obtain rfl : r=1 := by simpa using hrp.1
      have ha : ∀ x∈twoPagesTables, (Place.table 1 x.1, Mapping.sole x.2)∈twoPagesView := by
        decide
      exact ha _ (twoPages_walk hrp.2 hw)
    · cases h
  | page r p l =>
    simp only [view] at h
    split at h
    · rename_i hrp
      obtain ⟨t,hw,hl⟩ := bind_eq_some_iff.1 h
      obtain rfl : r=1 := by simpa using hrp.1
      exact twoPages_entry (P := fun x k => x.1.length=3 →
        ∀ m∈leafMapping (twoPages.mmu.mem k.1 k.2), (Place.page 1 x.1 k.2, m)∈twoPagesView)
        (by decide) hrp.2.1.1 hw (leafMapping_eq_some hl).1 hrp.2.1.2.1 m hl
    · cases h

theorem twoPages_start : Start twoPagesHeld twoPages := by
  have hro : ∀ r, r∈twoPages.roots → r=1 := by simp [twoPages]
  refine ⟨⟨?_,?_,?_,by decide,?_,?_,?_,?_⟩,?_,?_,fun _ => rfl,?_⟩
  · intro r p t i hr hp hw hpr
    obtain rfl := hro r hr
    exact twoPages_entry (P := fun x k => x.1.length<3 → k.2<fanout x.1 →
      (twoPages.mmu.mem k.1 k.2).size=false ∧ (twoPages.mmu.mem k.1 k.2).page.toNat<2^27)
      (by decide) hp.1 hw hpr hp.2.1 hp.2.2
  · intro r p t l hr hp hs hw hpr
    obtain rfl := hro r hr
    exact absurd hs (twoPages_entry (P := fun x k => x.1.length=3 →
      ¬ IsShared (pathAddress x.1 k.2)) (by decide) hp.1 hw hpr hp.2.1)
  · intro r p t l hr hp hw hpr _
    obtain rfl := hro r hr
    exact twoPages_entry (P := fun x k => x.1.length=3 →
      (twoPages.mmu.mem k.1 k.2).cowPending=false) (by decide) hp.1 hw hpr hp.2.1
  · intro r hr i hi _ hpr
    obtain rfl := hro r hr
    have ha : ∀ k∈twoPagesWords.map fst, k.1=1 → 256≤k.2 →
        (twoPages.mmu.mem k.1 k.2).frame∈twoPagesHeld.pdps := by decide
    exact ha (1, i) (twoPages_present hpr) rfl hi
  · intro t ht i _ hpr _
    have ha : ∀ k∈twoPagesWords.map fst, k.1∈twoPagesHeld.pdps →
        (twoPages.mmu.mem k.1 k.2).frame∈twoPagesHeld.pds := by decide
    exact ha (t, i) (twoPages_present hpr) ht
  · intro t ht i _ hpr hsi
    have ha : ∀ k∈twoPagesWords.map fst, k.1∈twoPagesHeld.pds →
        (twoPages.mmu.mem k.1 k.2).size=true := by decide
    rw [ha (t, i) (twoPages_present hpr) ht] at hsi
    cases hsi
  · intro t ht
    cases ht
  · intro x m hm
    have ha : ∀ v∈twoPagesView, twoPages.mmu.Used v.2.frame := by decide
    exact ha _ (twoPages_view hm)
  · intro x y m m' hm hm' hf
    have ha : ∀ v∈twoPagesView, ∀ w∈twoPagesView, v.2.frame=w.2.frame → v.1=w.1 := by
      decide
    exact ha _ (twoPages_view hm) _ (twoPages_view hm') hf
  · intro x m hm
    have ha : ∀ v∈twoPagesView, v.2.cow=false := by decide
    exact ha _ (twoPages_view hm)

/-- The process is cloned, the clone writes to its page at `0x1000`, and the process unmaps the one
at `0x2000`. -/
theorem mmu_sharing_law_cloned : Start twoPagesHeld twoPages ∧ ∃ st', Runs UserHalf twoPages st' ∧
    (privateEntry st' 1 0x1000).map (·.page.toNat) = some 512 ∧
    (privateEntry st' 8 0x1000).map (·.page.toNat) = some 12 ∧
    privateEntry st' 1 0x2000 = none ∧ Accounted st' := by
  have hr : Yields (fun _ => False) (fun st1 => Yields (fun _ => False) (fun st2 =>
      st2.mmu.nframes=1024 ∧ 1∈st2.roots ∧ Yields (fun _ => False) (fun st3 =>
        (privateEntry st3 1 0x1000).map (·.page.toNat)=some 512 ∧
        (privateEntry st3 8 0x1000).map (·.page.toNat)=some 12 ∧
        (privateEntry st3 1 0x2000).isNone)
        (step (.munmap 1 0x2000 0x1000) st2)) (step (.writeFault 8 0x1000) st1))
      (step (.clone 1) twoPages) := by
    decide +kernel
  obtain ⟨st1,h1,hr⟩ := hr.exists_ok
  obtain ⟨st2,h2,hn,hmem,hr⟩ := hr.exists_ok
  obtain ⟨st3,h3,hp,hc,hu⟩ := hr.exists_ok
  have hop : ∀ st, UserHalf st (.clone 1) ∧ UserHalf st (.writeFault 8 0x1000) :=
    fun _ => ⟨trivial,trivial⟩
  have run := (Runs.refl.step (hop _).1 h1).step (hop _).2 h2
  have hl : LowTables st2.mmu 1 := fun p t hp hw => by
    have := ((run.addressSpaces twoPages_start).table_used hmem hp hw).1
    omega
  have hmu : UserHalf st2 (.munmap 1 0x2000 0x1000) := ⟨by decide,hl⟩
  have run := run.step hmu h3
  exact ⟨twoPages_start,st3,run,hp,hc,by simpa using hu,(mmu_sharing_law twoPages_start run).1⟩

/-- The data of a page is taken for a page table, and the frame that its first word names is freed.
-/
theorem munmap_frees_mapped_frame : Start twoPagesHeld twoPages ∧ ∃ st',
      step (.munmap 1 0xffffff8000200000 0x1000) twoPages = .ok st' ∧ ¬ Accounted st' := by
  refine ⟨twoPages_start,?_⟩
  have hr : Yields (fun _ => False) (fun st' =>
      (privateEntry st' 1 0x2000).map (·.page.toNat)=some 5 ∧ ¬ st'.mmu.Used 5)
      (step (.munmap 1 0xffffff8000200000 0x1000) twoPages) := by
    decide +kernel
  obtain ⟨st',hs,hen,hun⟩ := hr.exists_ok
  refine ⟨st',hs,fun ha => ?_⟩
  obtain ⟨e,he,hp⟩ := map_eq_some_iff.1 hen
  have hu := ha.used 1 0x2000 e he
  rw [hp] at hu
  exact hun hu
end RazionOS.Kernel
