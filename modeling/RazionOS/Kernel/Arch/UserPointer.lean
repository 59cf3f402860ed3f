import RazionOS.Kernel.Arch.Effects

/-! # User pointers -/

namespace RazionOS.Kernel
open Framework MMU

def IsPdp (s : MMU) (root t : Nat) : Prop :=
  ∃ i<512, (s.mem root i).present=true ∧ t=(s.mem root i).frame

def IsPd (s : MMU) (root t : Nat) : Prop :=
  ∃ pdp, IsPdp s root pdp ∧
    ∃ i<512, (s.mem pdp i).present=true ∧ (s.mem pdp i).size=false ∧ t=(s.mem pdp i).frame

def IsPt (s : MMU) (root t : Nat) : Prop :=
  ∃ pd, IsPd s root pd ∧
    ∃ i<512, (s.mem pd i).present=true ∧ (s.mem pd i).size=false ∧ t=(s.mem pd i).frame

def IsUpper (s : MMU) (root t : Nat) : Prop := t=root ∨ IsPdp s root t ∨ IsPd s root t

/-- Its tables are not given away, and its page tables are not tables of a higher level. -/
structure Directory (s : MMU) (root : Nat) : Prop where
  used : ∀ t, IsUpper s root t ∨ IsPt s root t → t < s.nframes → s.Used t
  apart : ∀ t, IsPt s root t → ¬ IsUpper s root t

theorem pageAddr_entries_lt : pml4Entry a<512 ∧ pdpEntry a<512 ∧ pdEntry a<512 ∧ ptEntry a<512 := by
  unfold pml4Entry pdpEntry pdEntry ptEntry
  omega

theorem mmuGetPageOther_eq_some (h : mmuGetPageOther root a s=some (t, l)) : IsPt s root t := by
  obtain ⟨h4,h3,h2,-⟩ := pageAddr_entries_lt
  unfold mmuGetPageOther at h
  split at h
  · cases h
  rename_i hpm4
  dsimp only at h
  split at h
  · cases h
  rename_i hp
  split at h
  · cases h
  rename_i hpds
  split at h
  · cases h
  rename_i hpd
  split at h
  · cases h
  rename_i hps
  cases h
  have isPdp : IsPdp s root (s.mem root (pml4Entry a)).frame := ⟨_,h4,by simpa using hpm4,rfl⟩
  have isPd := (⟨_,isPdp,_,h3,by simpa using hp,by simpa using hpds,rfl⟩ : IsPd s root _)
  exact ⟨_,isPd,_,h2,by simpa using hpd,by simpa using hps,rfl⟩

section Congr
variable {s s' : MMU} (h : ∀ t, IsUpper s root t → s'.mem t = s.mem t)
include h

theorem isPdp_congr : IsPdp s' root t ↔ IsPdp s root t := by
  have hr := h root (.inl rfl)
  simp [IsPdp,hr]

theorem isPd_congr : IsPd s' root t ↔ IsPd s root t := by
  simp only [IsPd,isPdp_congr h]
  refine exists_congr fun pdp => and_congr_right fun hp => ?_
  rw [h pdp (.inr (.inl hp))]

private theorem isPt_congr : IsPt s' root t ↔ IsPt s root t := by
  simp only [IsPt,isPd_congr h]
  refine exists_congr fun pd => and_congr_right fun hpd => ?_
  rw [h pd (.inr (.inr hpd))]

private theorem isUpper_congr : IsUpper s' root t ↔ IsUpper s root t := by
  simp [IsUpper,isPdp_congr h,isPd_congr h]

private theorem mmuGetPageOther_congr (a : Nat) :
    mmuGetPageOther root a s' = mmuGetPageOther root a s := by
  obtain ⟨h4,h3,-,-⟩ := pageAddr_entries_lt
  have hr := h root (.inl rfl)
  unfold mmuGetPageOther
  rw [hr]
  split
  · rfl
  rename_i hpm4
  have isPdp : IsPdp s root (s.mem root (pml4Entry a)).frame := ⟨_,h4,by simpa using hpm4,rfl⟩
  dsimp only
  rw [h _ (.inr (.inl isPdp))]
  split
  · rfl
  rename_i hp
  split
  · rfl
  rename_i hs
  have isPd := (⟨_,isPdp,_,h3,by simpa using hp,by simpa using hs,rfl⟩ : IsPd s root _)
  rw [h _ (.inr (.inr isPd))]
end Congr

section CowDone
variable (h : CowDone s t l s')
include h

private theorem CowDone.nframes : s'.nframes=s.nframes := by
  cases h with
  | last hr => rfl
  | copy hn hr ha => exact ha.nframes

private theorem CowDone.used (hg : s.Used g) : s'.Used g := by
  cases h with
  | last hr => exact hg
  | copy hn hr ha =>
    exact (ha.used g).2 (.inl hg)

private theorem CowDone.mem_of_ne (hu : u < s.nframes → s.Used u) (hne : u≠t ∨ i≠l) :
    s'.mem u i=s.mem u i := by
  have hs : ¬ (u=t ∧ i=l) := by
    intro hs
    rcases hne with hne | hne
    · exact hne hs.1
    · exact hne hs.2
  cases h with
  | last hr => rw [setEntry_mem,if_neg hs,setRefcount_mem]
  | copy hn hr ha =>
    rename_i fresh _
    have hf : u≠fresh := by
      intro hf
      exact ha.fresh (hu (hf ▸ ha.lt) |> (hf ▸ ·))
    rw [setEntry_mem,if_neg hs,setFrame_mem,if_neg hf,ha.mem,setRefcount_mem]

theorem CowDone.entry (ht : t < s.nframes → s.Used t) :
    (s'.mem t l).present=(s.mem t l).present ∧ (s'.mem t l).user=(s.mem t l).user ∧
      (s'.mem t l).writable=true := by
  cases h with
  | last hr => simp [setEntry_mem]
  | copy hn hr ha =>
    rename_i fresh _
    have hf : t≠fresh := by
      intro hf
      exact ha.fresh (ht (hf ▸ ha.lt) |> (hf ▸ ·))
    simp [setEntry_mem,setFrame_mem,hf,ha.mem]
end CowDone

/-- The lookups of a directory stay as they are, but for pages that become writable. -/
structure Kept (root : Nat) (s s' : MMU) : Prop where
  directory : Directory s' root
  lookup : ∀ a, mmuGetPageOther root a s' = mmuGetPageOther root a s
  entry : ∀ a t l, mmuGetPageOther root a s=some (t, l) →
    (s'.mem t l).present=(s.mem t l).present ∧ (s'.mem t l).user=(s.mem t l).user ∧
      ((s.mem t l).writable=true → (s'.mem t l).writable=true)

theorem Kept.refl (h : Directory s root) : Kept root s s :=
  ⟨h,fun _ => rfl,fun _ _ _ _ => ⟨rfl,rfl,id⟩⟩

private theorem Kept.trans (h : Kept root s s') (h' : Kept root s' s'') : Kept root s s'' := by
  refine ⟨h'.directory,fun a => (h'.lookup a).trans (h.lookup a),?_⟩
  intro a t l ha
  have h1 := h.entry a t l ha
  have h₂ := h'.entry a t l ((h.lookup a).trans ha)
  exact ⟨h₂.1.trans h1.1,h₂.2.1.trans h1.2.1,fun hw => h₂.2.2 (h1.2.2 hw)⟩

private theorem CowDone.kept (hd : Directory s root) (ha : mmuGetPageOther root a s=some (t, l))
    (h : CowDone s t l s') : Kept root s s' := by
  have hpt := mmuGetPageOther_eq_some ha
  have hus := hd.used t (.inr hpt)
  have hup : ∀ u, IsUpper s root u → s'.mem u=s.mem u := by
    intro u hu
    funext i
    apply h.mem_of_ne (hd.used u (.inl hu))
    left
    rintro rfl
    exact hd.apart _ hpt hu
  refine ⟨⟨?_,?_⟩,mmuGetPageOther_congr hup,?_⟩
  · intro u hu hlt
    rw [isUpper_congr hup,isPt_congr hup] at hu
    exact h.used (hd.used u hu (h.nframes ▸ hlt))
  · intro u hu
    rw [isUpper_congr hup]
    exact hd.apart u ((isPt_congr hup).1 hu)
  intro b u i hb
  have hpt' := mmuGetPageOther_eq_some hb
  by_cases hs : u=t ∧ i=l
  · obtain ⟨rfl,rfl⟩ := hs
    have he := h.entry hus
    exact ⟨he.1,he.2.1,fun _ => he.2.2⟩
  have hsa := h.mem_of_ne (hd.used u (.inr hpt')) (by
    by_cases hu : u=t
    · exact .inr fun hi => hs ⟨hu,hi⟩
    · exact .inl hu)
  rw [hsa]
  exact ⟨rfl,rfl,id⟩

def Accessible (s : MMU) (root a : Nat) (write : Prop) : Prop :=
  ∃ t l, mmuGetPageOther root a s=some (t, l) ∧ (s.mem t l).present=true ∧
    (s.mem t l).user=true ∧ (write → (s.mem t l).writable=true)

private theorem Accessible.kept (h : Accessible s root a write) (hk : Kept root s s') :
    Accessible s' root a write := by
  obtain ⟨t,l,ha,hpr,hus,hwr⟩ := h
  obtain ⟨hp,hu,hw⟩ := hk.entry a t l ha
  exact ⟨t,l,(hk.lookup a).trans ha,hp.trans hpr,hu.trans hus,fun h => hw (hwr h)⟩

private theorem accessible_page :
    Accessible s root (a/pageSize*pageSize) write ↔ Accessible s root a write := by
  have hp : pageAddr (a/pageSize*pageSize)=pageAddr a := by
    unfold pageAddr pageSize
    omega
  have hl : mmuGetPageOther root (a/pageSize*pageSize) s=mmuGetPageOther root a s := by
    unfold mmuGetPageOther pml4Entry pdpEntry pdEntry ptEntry
    rw [hp]
  simp [Accessible,hl]

def AsksWrite (flags : Nat) : Prop := flags &&& mmuPtrWrite≠0

private theorem validateUserPage_ok (hdi : Directory s root)
    (h : validateUserPage root flags page s = .ok (true, s')) :
    Kept root s s' ∧ Accessible s root (page*pageSize) False ∧
      Accessible s' root (page*pageSize) (AsksWrite flags) := by
  unfold validateUserPage at h
  split at h
  · cases h
  split at h
  · cases h
  rename_i t l he
  split at h
  · cases h
  rename_i hp
  split at h
  · cases h
  rename_i hu
  have hp : (s.mem t l).present=true := by simpa using hp
  have hu : (s.mem t l).user=true := by simpa using hu
  have hb : Accessible s root (page*pageSize) False := ⟨t,l,he,hp,hu,False.elim⟩
  split at h
  · obtain ⟨⟨failed,s1⟩,hco,h⟩ := bind_eq_ok.1 h
    cases failed with
    | true => cases h
    | false =>
      cases h
      obtain ⟨t',l',he',hc⟩ := mmuCopyOnWrite_cases hco
      cases he.symm.trans he'
      rcases hc with ⟨hf,-⟩ | ⟨-,-,-,hd⟩
      · cases hf
      have hk := hd.kept hdi he
      have ha := hd.entry (hdi.used t (.inr (mmuGetPageOther_eq_some he)))
      exact ⟨hk,hb,t,l,(hk.lookup _).trans he,ha.1.trans hp,ha.2.1.trans hu,fun _ => ha.2.2⟩
  · rename_i hw
    cases h
    refine ⟨.refl hdi,hb,t,l,he,hp,hu,?_⟩
    intro hasks
    by_contra hr
    exact hw (by simpa [hr,AsksWrite] using hasks)

private theorem validatePages_ok (hd : Directory s root)
    (h : forRangeWhile (fun i => validateUserPage root flags (base+i)) n s = .ok (true, s')) :
    ∀ i<n, Accessible s root ((base+i)*pageSize) False ∧
      Accessible s' root ((base+i)*pageSize) (AsksWrite flags) := by
  have hinv := forRangeWhile_invariant (fun n s' => Kept root s s' ∧ ∀ i<n,
    Accessible s root ((base+i)*pageSize) False ∧
      Accessible s' root ((base+i)*pageSize) (AsksWrite flags)) ⟨.refl hd,by simp⟩ ?_ h
  · exact hinv.2
  intro n s1 s2 _ hinv hbo
  obtain ⟨hk,hpg⟩ := hinv
  obtain ⟨hk',hb,ha⟩ := validateUserPage_ok hk.directory hbo
  refine ⟨hk.trans hk',?_⟩
  intro i hi
  by_cases hin : i=n
  · subst hin
    refine ⟨?_,ha⟩
    obtain ⟨t,l,he,hpr,hus,-⟩ := hb
    rw [hk.lookup] at he
    obtain ⟨hp,hu,-⟩ := hk.entry _ t l he
    exact ⟨t,l,he,hp ▸ hpr,hu ▸ hus,False.elim⟩
  · have := hpg i (by omega)
    exact ⟨this.1,this.2.kept hk'⟩

/-- The range does not wrap around, and each of its bytes is on a page of the user's. -/
def Trustworthy (root addr size flags : Nat) (s : MMU) : Prop :=
  ∀ s', mmuValidateUserPointer root addr size flags s = .ok (true, s') →
    addr + size≤2^64 ∧ ∀ a, addr≤a → a<addr+size →
      Accessible s root a False ∧ Accessible s' root a (AsksWrite flags)

theorem mmuValidateUserPointer_wraps (root flags : Nat) (s : MMU) (ha : addr<2^64)
    (hs : size≤0x800000000000) (hw : 2^64<addr+size) :
    mmuValidateUserPointer root addr size flags s = .ok (true, s) := by
  have hl : (addr+(size-1))%2 ^ 64/pageSize+1-addr/pageSize=0 := by
    unfold pageSize
    omega
  have ha0 : addr≠0 := by omega
  have hs0 : size≠0 := by omega
  simp only [mmuValidateUserPointer,ha0,hs0,Nat.not_lt.mpr hs,hl,if_false,ne_eq,not_false_eq_true,
    if_true,forRangeWhile]

theorem mmuValidateUserPointer_trustworthy {s : MMU} {root addr size flags : Nat}
    (hdir : Directory s root) (haddr : addr ≠ 0) (hlt : addr < 2^64) :
    Trustworthy root addr size flags s ↔ 0x800000000000 < size ∨ addr+size ≤ 2^64 := by
  constructor
  · intro h
    by_contra hc
    have hsi : size≤0x800000000000 := by omega
    have hw := mmuValidateUserPointer_wraps root flags s hlt hsi (by omega)
    have := (h s hw).1
    omega
  intro hc s' hs'
  unfold mmuValidateUserPointer at hs'
  rw [if_neg haddr] at hs'
  split at hs'
  · cases hs'
  have hf : addr+size≤2^64 := by omega
  refine ⟨hf,?_⟩
  intro a ha ha'
  have hl : (if size≠0 then (addr+(size-1))%2 ^ 64 else addr)=addr+(size-1) := by
    rw [if_pos (by omega),Nat.mod_eq_of_lt (by omega)]
  rw [hl] at hs'
  have hp := validatePages_ok hdir hs' (a/pageSize-addr/pageSize)
  have hb : addr/pageSize≤a/pageSize := Nat.div_le_div_right ha
  have he : a/pageSize≤(addr+(size-1))/pageSize := Nat.div_le_div_right (by omega)
  rw [Nat.add_sub_cancel' hb,accessible_page,accessible_page] at hp
  exact hp (by omega)

theorem onePage_nframes_le : 64≤2^27 := by decide

def onePage : MMU where
  nframes := 64
  nframes_le := onePage_nframes_le
  frames _ := 0b111110
  lowestAvailable := 0
  memRefcounts _ := 0
  mem t i :=
    if t∈[1, 2, 3] ∧ i=0 then .directory (t+1)
    else if t=4 ∧ i=1 then .directory 5
    else .ofRaw 0

private theorem onePage_mem_present (h : (onePage.mem t i).present=true) :
    t∈[1, 2, 3] ∧ i=0 ∧ (onePage.mem t i).frame=t+1 ∨ t=4 := by
  by_cases ht : t∈[1, 2, 3] ∧ i=0
  · left
    have hlt : t+1<2^27 := by
      have := ht.1
      simp at this
      omega
    simp only [onePage,ht,and_self,if_true,PML.directory_frame hlt]
  · right
    by_contra ht4
    have hp : ¬ (t=4 ∧ i=1) := fun h4 => ht4 h4.1
    simp only [onePage,if_neg ht,if_neg hp] at h
    cases h

theorem onePage_directory : Directory onePage 1 := by
  have hpdp : ∀ t, IsPdp onePage 1 t → t=2 := by
    rintro t ⟨i,-,hpr,rfl⟩
    rcases onePage_mem_present hpr with h | h
    · exact h.2.2
    · omega
  have hpd : ∀ t, IsPd onePage 1 t → t=3 := by
    rintro t ⟨pdp,hp,i,-,hpr,-,rfl⟩
    cases hpdp pdp hp
    rcases onePage_mem_present hpr with h | h
    · exact h.2.2
    · omega
  have hpt : ∀ t, IsPt onePage 1 t → t=4 := by
    rintro t ⟨pd,hp,i,-,hpr,-,rfl⟩
    cases hpd pd hp
    rcases onePage_mem_present hpr with h | h
    · exact h.2.2
    · omega
  have hup : ∀ t, IsUpper onePage 1 t → t∈[1, 2, 3] := by
    rintro t (rfl | h | h)
    · simp
    · simp [hpdp t h]
    · simp [hpd t h]
  refine ⟨?_,?_⟩
  · intro t ht _
    have : t∈[1, 2, 3, 4] := by
      rcases ht with h | h
      · have := hup t h
        simp at this
        simp
        omega
      · simp [hpt t h]
    have hus : ∀ t∈[1, 2, 3, 4], onePage.Used t := by decide
    exact hus t this
  · intro t ht hu
    have h1 := hpt t ht
    have h₂ := hup t hu
    simp [h1] at h₂

theorem mmuValidateUserPointer_trustworthy_onePage :
    Trustworthy 1 0x1000 0x1000 mmuPtrWrite onePage ↔
      0x800000000000 < 0x1000 ∨ 0x1000+0x1000 ≤ 2^64 :=
  mmuValidateUserPointer_trustworthy onePage_directory (by decide) (by decide)

/-- A range that ends past the top of the address space is accepted, with no page behind it. -/
theorem mmuValidateUserPointer_accepts_wrapped : Directory onePage 1 ∧
      mmuValidateUserPointer 1 0xfffffffffffff000 0x2000 mmuPtrWrite onePage = .ok (true, onePage) ∧
      2 ^ 64 < 0xfffffffffffff000+0x2000 ∧ ¬ Accessible onePage 1 0xfffffffffffff000 False := by
  refine ⟨onePage_directory,?_,by decide,?_⟩
  · exact mmuValidateUserPointer_wraps 1 mmuPtrWrite onePage (by decide) (by decide) (by decide)
  rintro ⟨t,l,he,-⟩
  cases he
end RazionOS.Kernel
