import RazionOS.Kernel.Sys.MapPage

/-! # Fresh mappings -/

namespace RazionOS.Kernel
open Framework Function

theorem freePageMaybe_benign : Benign (freePageMaybe pt l s) := by
  unfold freePageMaybe
  dsimp only
  split
  · split
    · exact .error (by decide)
    · exact .ok trivial
  · split
    · exact .ok trivial
    · refine (refcountDec_benign _ s).bind fun x _ => ?_
      split <;> exact .ok trivial

private theorem freePages_benign (i j k pt : Nat) (s : MMU) : Benign (freePages i j k pt s) := by
  apply forRange_fails
  intro l s
  split
  · exact .ok trivial
  exact .guard fun _ => .guard fun _ => freePageMaybe_benign

private theorem freeTables_benign (hi : ∀ i t s, Benign (visit i t s)) (n table : Nat) (s : MMU) :
    Benign (freeTables n visit table s) := by
  apply forRange_fails
  intro i s
  exact .guard fun _ => (hi i _ s).bind fun _ _ => .ok trivial

private theorem mmuFree_benign (root : Nat) (s : MMU) : Benign (mmuFree root s) := by
  have ht := freeTables_benign (fun i => freeTables_benign (fun j => freeTables_benign
    (fun k => freePages_benign i j k) 512) 512) 256 root s
  exact ht.bind fun _ _ => .ok trivial

private theorem unmapUserPage_benign : Benign (unmapUserPage root a s) := by
  unfold unmapUserPage
  split
  · exact .ok trivial
  split
  · exact .ok trivial
  exact .guard fun _ => freePageMaybe_benign.bind fun _ _ => .ok trivial

private theorem sysMunmap_benign : Benign (sysMunmap root addr length s) := by
  have hu : Benign (mmuUnmapUser root addr length s) := by
    unfold mmuUnmapUser
    dsimp only
    split
    · exact .error (by decide)
    · exact forRange_fails _ s fun i s => unmapUserPage_benign
  unfold sysMunmap
  split
  · exact .ok trivial
  split
  · exact .ok trivial
  · exact hu.bind fun _ _ => .ok trivial

private theorem writeFault_benign : Benign (writeFault r a s) := by
  have hc : Benign (mmuCopyOnWrite r a s) := by
    unfold mmuCopyOnWrite
    rw [mmuGetPage_false]
    refine Yields.bind (P := fun _ => True) (.ok trivial) ?_
    rintro ⟨_ | ⟨t,l⟩,s1⟩ -
    · exact .error (by decide)
    dsimp only
    split
    · exact .ok trivial
    refine (refcountDec_benign _ s1).bind ?_
    rintro ⟨refs,s2⟩ -
    split
    · exact .ok trivial
    refine (mmuAllocateAFrame_yields s2).bind ?_
    rintro ⟨fresh,s3⟩ -
    split
    · exact .error (by decide)
    · exact .ok trivial
  exact .guard fun _ => hc.bind fun _ _ => .ok trivial

private theorem step_benign (inv : AddressSpaces st.roots h st.mmu) : Benign (step op st) := by
  cases op with
  | clone r => exact .guard fun hr => (mmuClone_spec inv hr).bind fun _ _ => .ok trivial
  | writeFault r address =>
    exact .guard fun _ => writeFault_benign.bind fun _ _ => .ok trivial
  | munmap r address length =>
    exact .guard fun _ => sysMunmap_benign.bind fun _ _ => .ok trivial
  | teardown r => exact .guard fun _ => (mmuFree_benign r st.mmu).bind fun _ _ => .ok trivial
  | store r address word => exact .guard fun _ => .ok trivial

private theorem mmuGetPage_benign : Benign (mmuGetPage root a make s) := by
  have he : ∀ t i s, Benign (ensureEntry make t i s) := by
    intro t i s
    unfold ensureEntry
    split
    · split
      · exact .ok trivial
      · exact (newDirectory_benign t i s).bind fun _ _ => .ok trivial
    · exact .ok trivial
  refine (he _ _ s).bind ?_
  rintro ⟨found,s1⟩ -
  dsimp only
  split
  · exact .ok trivial
  refine (he _ _ s1).bind ?_
  rintro ⟨found,s2⟩ -
  split
  · exact .ok trivial
  split
  · exact .ok trivial
  refine (he _ _ s2).bind ?_
  rintro ⟨found,s3⟩ -
  split
  · exact .ok trivial
  split <;> exact .ok trivial

private theorem mapPage_yields (inv : AddressSpaces roots h s)
    (hr : r∈roots) (ha : a<2^47) (hal : a%pageSize=0) (hm : Mappable s r a) :
    Yields Fatal.Benign (fun s' => (∃ h', AddressSpaces roots h' s') ∧ Maps roots r a s s')
      (mapPage r (mmuFlags prot) fill a s) := by
  have hl := pml4Entry_lt_of_user ha
  have hf : Benign (mapPage r (mmuFlags prot) fill a s) := by
    refine (mmuGetPage_benign.and_ok
      fun x hok => mmuGetPage_true_spec inv hr hl hok).bind ?_
    rintro ⟨page,s1⟩ ⟨hg,t,rfl,hw⟩
    have hc : (s1.mem t (ptEntry a)).cowPending=false := by
      rw [← leafWord_of_walk hg.inv.toLayout hr hl hw,hg.leaf r a hr hl]
      exact hm.1
    dsimp only
    rw [sanityCheck,hc]
    refine Yields.bind (P := fun _ => True) (.ok trivial) fun _ _ => ?_
    refine Yields.bind (P := fun _ => True) ?_ fun _ _ => .ok trivial
    unfold mmuFrameAllocate
    exact .guard fun _ => (mmuAllocateAFrame_yields s1).bind fun _ _ => .ok trivial
  exact hf.and_ok fun s' hok => mapPage_spec inv hr ha hal hm hok

def FreshPage (st : Machine) (r a : Nat) : Prop :=
  ∃ e, userEntry st r a=some e ∧ st.mmu.Used e.page.toNat ∧
    ∀ r' a' e', (r', a')≠(r, a) → userEntry st r' a' = some e' → e'.page.toNat≠e.page.toNat

structure RangeMapped (roots : List Nat) (r base n : Nat) (s s' : MMU) : Prop where
  inv : ∃ h, AddressSpaces roots h s'
  fresh : ∀ i<n, FreshPage ⟨s',roots⟩ r (base+i*pageSize)
  leaf : ∀ r' a', r' ∈ roots → a' < 2^47 → a'%pageSize=0 →
    (∀ i<n, (r', a')≠(r, base+i*pageSize)) → leafWord s' r' a' = leafWord s r' a'
  content : ∀ r' a' e', (∀ i<n, (r', a')≠(r, base+i*pageSize)) →
    userEntry ⟨s,roots⟩ r' a' = some e' → s'.mem e'.page.toNat=s.mem e'.page.toNat
  refs : s'.refs=s.refs

theorem userEntry_congr (hl : r∈roots → a<2^47 → a%pageSize=0 → leafWord s' r a=leafWord s r a) :
    userEntry ⟨s',roots⟩ r a=userEntry ⟨s,roots⟩ r a := by
  unfold userEntry
  by_cases hv : r∈roots ∧ a<2^47 ∧ a%pageSize=0
  · rw [hl hv.1 hv.2.1 hv.2.2]
  · rw [if_neg fun hc => hv ⟨hc.1,hc.2.1,hc.2.2.1⟩,if_neg fun hc => hv ⟨hc.1,hc.2.1,hc.2.2.1⟩]

theorem RangeMapped.userEntry_eq (hn : RangeMapped roots r base n s s')
    (ho : ∀ i<n, (r', a')≠(r, base+i*pageSize)) :
    userEntry ⟨s',roots⟩ r' a' = userEntry ⟨s,roots⟩ r' a' :=
  userEntry_congr fun hr' ha' hal' => hn.leaf r' a' hr' ha' hal' ho

private theorem FreshPage.of_maps (hm : Maps roots r a s s') (hne : (r, a')≠(r, a))
    (hf : FreshPage ⟨s,roots⟩ r a') : FreshPage ⟨s',roots⟩ r a' := by
  have hs : ∀ r1 a1, (r1, a1)≠(r, a) →
      userEntry ⟨s',roots⟩ r1 a1=userEntry ⟨s,roots⟩ r1 a1 := by
    intro r1 a1 hne1
    exact userEntry_congr fun hr ha hal => hm.leaf r1 a1 hr ha hal hne1
  obtain ⟨e,he,hu,halo⟩ := hf
  refine ⟨e,(hs r a' hne).trans he,hm.used _ hu,?_⟩
  intro r1 a1 e1 hne1 he1
  by_cases hn : (r1, a1)=(r, a)
  · cases hn
    obtain ⟨e2,he2,-,ho⟩ := hm.entry
    rw [he2] at he1
    cases he1
    exact (ho r a' e hne he).symm
  · exact halo r1 a1 e1 hne1 ((hs r1 a1 hn).symm.trans he1)

private theorem Maps.fresh (hm : Maps roots r a s s') : FreshPage ⟨s',roots⟩ r a := by
  obtain ⟨e,he,hu,ho⟩ := hm.entry
  refine ⟨e,he,hu,?_⟩
  intro r1 a1 e1 hne he1
  refine ho r1 a1 e1 hne (Eq.trans ?_ he1)
  exact (userEntry_congr fun hr ha hal => hm.leaf r1 a1 hr ha hal hne).symm

private theorem RangeMapped.step (hn : RangeMapped roots r base n s s1)
    (inv' : ∃ h, AddressSpaces roots h s') (hm : Maps roots r (base+n*pageSize) s1 s') :
    RangeMapped roots r base (n+1) s s' := by
  have hold : ∀ {r' a' : Nat}, (∀ i<n+1, (r', a')≠(r, base+i*pageSize)) →
      ∀ i<n, (r', a')≠(r, base+i*pageSize) := fun ho i hi => ho i (by omega)
  constructor
  case inv => exact inv'
  case fresh =>
    intro i hi
    by_cases hl : i=n
    · rw [hl]
      exact hm.fresh
    · refine (hn.fresh i (by omega)).of_maps hm ?_
      simp only [pageSize,ne_eq,Prod.mk.injEq]
      omega
  case leaf =>
    intro r' a' hr' ha' hal' ho
    rw [hm.leaf r' a' hr' ha' hal' (ho n (by omega)),hn.leaf r' a' hr' ha' hal' (hold ho)]
  case content =>
    intro r' a' e' ho he'
    have he1 := (hn.userEntry_eq (hold ho)).trans he'
    rw [hm.content r' a' e' (ho n (by omega)) he1,hn.content r' a' e' (hold ho) he']
  case refs => exact hm.refs.trans hn.refs

private theorem RangeMapped.mappable (hn : RangeMapped roots r base n s s') (hr : r∈roots)
    (ha : a<2^47) (hal : a%pageSize=0) (ho : ∀ i<n, a≠base+i*pageSize) (hm : Mappable s r a) :
    Mappable s' r a := by
  have hl := hn.leaf r a hr ha hal fun i hi hc => ho i hi (Prod.mk.inj hc).2
  unfold Mappable at *
  rw [hl,hn.refs]
  exact hm

def userWord (st : Machine) (r a w : Nat) : Option PML :=
  (userEntry st r a).map fun e => st.mmu.mem e.page.toNat w

def Call.mapping : Call → Option (Nat × MmapArgs)
  | .op _ => none
  | .mmapAnon r args => some (r, args)
  | .mmapFile r args _ _ => some (r, args)

/-- A mapping that passes the checks stays within the user half, and finds each of its pages
mappable. -/
def Roomy (st : System) (r : Nat) (args : MmapArgs) : Prop :=
  r∈st.machine.roots → mmapCommonChecks args=none → mapBase st r args + args.length≤2^47 ∧
      ∀ i<args.length/pageSize, Mappable st.machine.mmu r (mapBase st r args + i*pageSize)

def Plain (st : System) : Call → Prop
  | .op o => UserHalf st.machine o
  | .mmapAnon r args => Roomy st r args
  | .mmapFile r args _ offset => offset%pageSize=0 → Roomy st r args

inductive SysRuns (ok : System → Call → Prop) (st : System) : System → Prop
  | refl : SysRuns ok st st
  | step (run : SysRuns ok st st1)
    (hcall : ok st1 c) (hstep : sysStep c st1 = .ok (result, st2)) : SysRuns ok st st2

structure MmapDone (st st' : System) (r : Nat) (args : MmapArgs) (addr : Nat) : Prop where
  fresh : ∀ i<args.length/pageSize, FreshPage st'.machine r (addr+i*pageSize)
  others : ∀ r' a', ¬ (r' = r ∧ addr≤a' ∧ a' < addr+args.length) →
    userEntry st'.machine r' a' = userEntry st.machine r' a' ∧
      ∀ w, userWord st'.machine r' a' w=userWord st.machine r' a' w

structure SysInv (st : System) : Prop where
  spaces : ∃ h, AddressSpaces st.machine.roots h st.machine.mmu
  aligned : ∀ r, st.heap r % pageSize=0

private theorem mmapCommonChecks_eq_none (h : mmapCommonChecks args=none) :
    args.addr % pageSize=0 ∧ args.length%pageSize=0 := by
  unfold mmapCommonChecks at h
  split at h
  · cases h
  split at h
  · cases h
  split at h
  · cases h
  rename_i ha hlen
  exact ⟨not_ne_iff.1 ha,not_ne_iff.1 hlen⟩

private theorem RangeMapped.mmapDone (hlen : args.length%pageSize=0)
    (hn : RangeMapped st.machine.roots r addr (args.length/pageSize) st.machine.mmu s') :
    MmapDone st ⟨⟨s',st.machine.roots⟩,heap⟩ r args addr := by
  refine ⟨hn.fresh,?_⟩
  intro r' a' ho
  have ho' : ∀ i<args.length/pageSize, (r', a')≠(r, addr+i*pageSize) := by
    rintro i hi hc
    obtain ⟨rfl,rfl⟩ := Prod.mk.inj hc
    unfold pageSize at *
    omega
  have hen := hn.userEntry_eq ho'
  refine ⟨hen,fun w => ?_⟩
  unfold userWord
  rw [hen]
  cases he : userEntry st.machine r' a' with
  | none => rfl
  | some e => simp [hn.content r' a' e ho' he]

private theorem mapRange_yields (hst : SysInv st) (hr : r∈st.machine.roots)
    (hc : mmapCommonChecks args=none) (hro : Roomy st r args) :
    Yields Fatal.Benign (fun x => SysInv x.2 ∧ MmapDone st x.2 r args x.1)
      (mapRange r args fill st) := by
  obtain ⟨had,hlen⟩ := mmapCommonChecks_eq_none hc
  obtain ⟨he,hm⟩ := hro hr hc
  have hb : mapBase st r args % pageSize=0 := by
    unfold mapBase
    split
    · exact had
    · exact hst.aligned r
  have hrn : Yields Fatal.Benign
      (RangeMapped st.machine.roots r (mapBase st r args) (args.length/pageSize) st.machine.mmu)
      (forRange (fun i => mapPage r (mmuFlags args.prot) (fill i)
        ((mapBase st r args + i*pageSize)%2 ^ 64)) (args.length/pageSize)
        st.machine.mmu) := by
    apply forRange_yields (RangeMapped st.machine.roots r (mapBase st r args) · st.machine.mmu ·)
    · exact ⟨hst.spaces,by simp,fun _ _ _ _ _ _ => rfl,fun _ _ _ _ _ => rfl,rfl⟩
    intro i s hi hma
    obtain ⟨h,inv⟩ := hma.inv
    have ha : mapBase st r args + i*pageSize<2^47 := by
      unfold pageSize at *
      omega
    have hal : (mapBase st r args + i*pageSize)%pageSize=0 := by
      unfold pageSize at *
      omega
    have ho : ∀ j < i, mapBase st r args + i*pageSize≠mapBase st r args + j*pageSize := by
      unfold pageSize
      omega
    have hm := hma.mappable hr ha hal ho (hm i hi)
    rw [Nat.mod_eq_of_lt (by omega)]
    exact (mapPage_yields inv hr ha hal hm).mono fun s' hs' =>
      hma.step hs'.1 hs'.2
  refine hrn.bind fun s' hma => .ok ⟨⟨hma.inv,?_⟩,hma.mmapDone hlen⟩
  intro r'
  dsimp only
  split
  · exact hst.aligned r'
  by_cases hr' : r' = r
  · subst hr'
    have hh := hst.aligned r'
    rw [update_self]
    unfold pageSize at *
    omega
  · rw [update_of_ne hr']
    exact hst.aligned r'

theorem sysStep_yields {call : Call} (hst : SysInv st) (hc : Plain st call) :
    Yields Fatal.Benign (fun x => SysInv x.2 ∧ ∀ r args addr, call.mapping=some (r, args) →
      x.1 = .ok addr → MmapDone st x.2 r args addr) (sysStep call st) := by
  have hre : ∀ error, SysInv st ∧ ∀ r args addr, call.mapping=some (r, args) →
      (Except.error error : Except MmapError Nat) = .ok addr → MmapDone st st r args addr :=
    fun error => ⟨hst,fun _ _ _ _ ha => nomatch ha⟩
  cases call with
  | op o =>
    obtain ⟨h,inv⟩ := hst.spaces
    refine ((step_benign inv).and_ok fun machine hok => (step_spec inv hc hok).1).bind
      fun machine inv' => ?_
    refine .ok ⟨⟨⟨h,inv'⟩,?_⟩,fun _ _ _ hm => nomatch hm⟩
    intro r'
    dsimp only
    split
    · rename_i r
      split
      · by_cases hr' : r' = machine.roots.headD 0
        · rw [hr',update_self]
          exact hst.aligned r
        · rw [update_of_ne hr']
          exact hst.aligned r'
      · exact hst.aligned r'
    · exact hst.aligned r'
  | mmapAnon r args =>
    simp only [sysStep]
    split
    swap
    · exact .ok (hre _)
    rename_i hr
    unfold mmapAnon
    split
    · exact .ok (hre _)
    rename_i hch
    refine (mapRange_yields hst hr hch hc).bind fun x hx => .ok ⟨hx.1,?_⟩
    rintro r' args' addr ⟨⟩ ⟨⟩
    exact hx.2
  | mmapFile r args file offset =>
    simp only [sysStep]
    split
    swap
    · exact .ok (hre _)
    rename_i hr
    unfold mmapFile
    split
    · exact .ok (hre _)
    rename_i hch
    split
    · exact .ok (hre _)
    rename_i ho
    have hro := hc (not_ne_iff.1 ho)
    refine (mapRange_yields hst hr hch hro).bind fun x hx => .ok ⟨hx.1,?_⟩
    rintro r' args' addr ⟨⟩ ⟨⟩
    exact hx.2

private theorem SysRuns.sysInv (hst : SysInv st) (run : SysRuns Plain st st') : SysInv st' := by
  induction run with
  | refl => exact hst
  | step run hc hs ih => exact ((sysStep_yields ih hc).of_ok hs).1

/-- In every run within the user half whose mappings find no frame left behind by an unmap or mapped
by others, a mapping leaves its pages in frames of their own, the other pages stay, and no call
fails on a page that waits for a copy. -/
theorem mmap_freshness {h : Held} {st st' : System} (hs : Start h st.machine)
    (halign : ∀ r, st.heap r % pageSize = 0) (run : SysRuns Plain st st') : ∀ call, Plain st' call →
      (∀ e, sysStep call st' = .error e → e ≠ .mappingCow ∧ e ≠ .writableShared) ∧
      ∀ r args addr st'', call.mapping = some (r, args) →
        sysStep call st' = .ok (.ok addr, st'') → MmapDone st' st'' r args addr := by
  have hinv := run.sysInv ⟨⟨h,hs.addressSpaces⟩,halign⟩
  intro call hc
  have hst := sysStep_yields hinv hc
  refine ⟨fun e he => hst.of_error he,?_⟩
  intro r args addr st'' hm hok
  exact (hst.of_ok hok).2 r args addr hm rfl

def twoPagesSystem : System := ⟨twoPages,fun _ => 0x60000000⟩
def onePageAt : MmapArgs := ⟨0x3000,0x1000,protWrite,mapPrivate ||| mapFixed⟩

private theorem twoPages_plain : Plain twoPagesSystem (.mmapAnon 1 onePageAt) := by
  intro _ _
  have hp : ∀ i<1, Mappable twoPages.mmu 1 (0x3000+i*pageSize) := by
    decide +kernel
  exact ⟨by decide,hp⟩

theorem mmap_freshness_twoPages : Plain twoPagesSystem (.mmapAnon 1 onePageAt) ∧ ∃ st',
      sysStep (.mmapAnon 1 onePageAt) twoPagesSystem = .ok (.ok 0x3000, st') ∧
      MmapDone twoPagesSystem st' 1 onePageAt 0x3000 := by
  have hs := twoPages_start
  have ha : ∀ r, twoPagesSystem.heap r % pageSize=0 := by
    intro _
    change 0x60000000 % pageSize=0
    decide
  have hl := mmap_freshness hs ha .refl _ twoPages_plain
  have hru : Yields (fun _ => False) (fun r => r.1 = .ok 0x3000)
      (sysStep (.mmapAnon 1 onePageAt) twoPagesSystem) := by
    decide +kernel
  obtain ⟨⟨_,st'⟩,hr,rfl⟩ := hru.exists_ok
  exact ⟨twoPages_plain,st',hr,hl.2 1 onePageAt 0x3000 st' rfl hr⟩

/-- The next mapping takes the frame of an unmapped page without a mark. -/
theorem mmap_reuses_unmapped_frame : Start twoPagesHeld twoPagesSystem.machine ∧ ∃ st1 st2 st3,
      sysStep (.mmapAnon 1 onePageAt) twoPagesSystem = .ok (.ok 0x3000, st1) ∧
      sysStep (.op (.munmap 1 0x3000 0x1000)) st1 = .ok (.ok 0, st2) ∧
      sysStep (.mmapAnon 1 onePageAt) st2 = .ok (.ok 0x3000, st3) ∧
      ¬ MmapDone st2 st3 1 onePageAt 0x3000 := by
  refine ⟨twoPages_start,?_⟩
  have hr : Yields (fun _ => False) (fun r1 => r1.1 = .ok 0x3000 ∧
      Yields (fun _ => False) (fun r2 => r2.1 = .ok 0 ∧
        Yields (fun _ => False) (fun r3 => r3.1 = .ok 0x3000 ∧
            (userEntry r3.2.machine 1 0x3000).map (·.page.toNat)=some 8 ∧ ¬ r3.2.machine.mmu.Used 8)
          (sysStep (.mmapAnon 1 onePageAt) r2.2))
        (sysStep (.op (.munmap 1 0x3000 0x1000)) r1.2))
      (sysStep (.mmapAnon 1 onePageAt) twoPagesSystem) := by
    decide +kernel
  obtain ⟨⟨_,st1⟩,h1,rfl,hr⟩ := hr.exists_ok
  obtain ⟨⟨_,st2⟩,h2,rfl,hr⟩ := hr.exists_ok
  obtain ⟨⟨_,st3⟩,h3,rfl,hp,hun⟩ := hr.exists_ok
  refine ⟨st1,st2,st3,h1,h2,h3,fun hd => ?_⟩
  obtain ⟨e,he,hu,-⟩ := hd.fresh 0 (by decide)
  have hf : e.page.toNat=8 := by
    have he : userEntry st3.machine 1 0x3000=some e := he
    rw [he] at hp
    exact Option.some.inj hp
  rw [hf] at hu
  exact hun hu
end RazionOS.Kernel
