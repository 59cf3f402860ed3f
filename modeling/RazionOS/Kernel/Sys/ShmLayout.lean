import RazionOS.Kernel.Sys.Shm

/-! # Where chunks are mapped -/

namespace RazionOS.Kernel.Shm
open Function List

def addrs (start numFrames : Nat) : List Nat :=
  (range numFrames).map fun i => start+i*0x1000

def Mapping.stop (m : Mapping) : Nat := m.base+m.vaddrs.length*0x1000

def Laid : Nat → List Mapping → Nat → Prop
  | low, [], high => low≤high
  | low, m::mappings, high => low ≤ m.base ∧ Laid m.stop mappings high

structure Mapping.Whole (m : Mapping) : Prop where
  nonempty : 0 < m.vaddrs.length
  aligned : m.base%0x1000=0
  vaddrs : m.vaddrs=addrs m.base m.vaddrs.length

def Mapping.Has (m : Mapping) (frames : List Nat) (page : Nat → Option Nat) : Prop :=
  m.vaddrs.length=frames.length ∧ ∀ i<frames.length, page (m.base/0x1000+i)=frames[i]?

section Laid
variable {before after mappings : List Mapping}

theorem Mapping.base_le_stop (m : Mapping) : m.base ≤ m.stop := Nat.le_add_right _ _

private theorem Laid.le (h : Laid low mappings high) : low≤high := by
  induction mappings generalizing low with
  | nil => exact h
  | cons m mappings ih =>
    have hr := ih h.2
    have hs := m.base_le_stop
    have hl := h.1
    omega

theorem Laid.mono_low (h : Laid mid mappings high) (hl : low ≤ mid) : Laid low mappings high := by
  cases mappings with
  | nil => exact hl.trans h
  | cons m mappings => exact ⟨hl.trans h.1,h.2⟩

theorem laid_append :
    Laid low (before++after) high ↔ ∃ mid, Laid low before mid ∧ Laid mid after high := by
  induction before generalizing low with
  | nil =>
    constructor
    · intro h
      exact ⟨low,Nat.le_refl low,h⟩
    · rintro ⟨mid,hl,h⟩
      exact h.mono_low hl
  | cons m before ih =>
    constructor
    · intro h
      obtain ⟨mid,hb,ha⟩ := ih.mp h.2
      exact ⟨mid,⟨h.1,hb⟩,ha⟩
    · rintro ⟨mid,hb,ha⟩
      exact ⟨hb.1,ih.mpr ⟨mid,hb.2,ha⟩⟩

theorem Laid.bounds (h : Laid low mappings high) (hm : m∈mappings) :
    low ≤ m.base ∧ m.stop≤high := by
  obtain ⟨before,after,rfl⟩ := mem_iff_append.mp hm
  obtain ⟨mid,hb,hmi,ha⟩ := laid_append.mp h
  exact ⟨hb.le.trans hmi,ha.le⟩

private theorem Laid.around (h : Laid low (before++m::after) high) :
    (∀ x∈before, x.stop ≤ m.base) ∧ ∀ x∈after, m.stop≤x.base := by
  obtain ⟨mid,hb,hm,ha⟩ := laid_append.mp h
  refine ⟨?_,?_⟩
  · intro x hx
    exact (hb.bounds hx).2.trans hm
  · intro x hx
    exact (ha.bounds hx).1

private theorem Laid.remove (h : Laid low (before++m::after) high) :
    Laid low (before++after) high := by
  obtain ⟨mid,hb,hm,ha⟩ := laid_append.mp h
  exact laid_append.mpr ⟨mid,hb,ha.mono_low (hm.trans m.base_le_stop)⟩

theorem Laid.pairwise (h : Laid low mappings high) :
    mappings.Pairwise fun m m' => m.stop ≤ m'.base := by
  induction mappings generalizing low with
  | nil => exact .nil
  | cons m mappings ih => exact .cons (fun x hx => (h.2.bounds hx).1) (ih h.2)
end Laid

theorem addrs_succ : addrs start (numFrames+1)=start::addrs (start+0x1000) numFrames := by
  rw [addrs,range_succ_eq_map,map_cons,map_map]
  congr 1
  apply map_congr_left
  simp only [comp_apply]
  omega

theorem length_addrs : (addrs start numFrames).length=numFrames := by
  rw [addrs,length_map,length_range]

variable {numFrames : Nat}

private theorem gapAddrs_eq (h : numFrames≤2^20) :
    gapAddrs start numFrames=addrs start numFrames := by
  apply map_congr_left
  intro i hi
  have hi := mem_range.mp hi
  rw [Nat.mod_eq_of_lt (by omega)]

theorem heapAddrs_eq (numFrames heap : Nat) (h : heap%0x1000=0) :
    heapAddrs numFrames heap=(addrs heap numFrames, heap+numFrames*0x1000) := by
  induction numFrames generalizing heap with
  | zero => rw [Nat.zero_mul]; rfl
  | succ numFrames ih =>
    have hs : procSbrk 1 heap=(heap, heap+0x1000) := by
      simp [procSbrk,h]
    have hr := ih (heap+0x1000) (by omega)
    simp only [heapAddrs,hs,hr,addrs_succ]
    congr 1
    omega

private theorem whole_of_addrs (hpos : 0<numFrames) (ha : start%0x1000=0) :
    (Mapping.mk c (addrs start numFrames)).Whole ∧
      (Mapping.mk c (addrs start numFrames)).base=start := by
  have hb : (Mapping.mk c (addrs start numFrames)).base=start := by
    obtain ⟨n,rfl⟩ := Nat.exists_eq_succ_of_ne_zero hpos.ne'
    rw [addrs_succ]
    rfl
  refine ⟨⟨?_,?_,?_⟩,hb⟩
  · rw [length_addrs]
    exact hpos
  · rw [hb]
    exact ha
  · rw [hb,length_addrs]

private theorem mapPages_apply (h : start%0x1000=0) :
    mapPages (addrs start frames.length) frames page x =
      if start/0x1000≤x ∧ x < start/0x1000+frames.length then
        frames[x-start/0x1000]?
      else page x := by
  induction frames generalizing start page with
  | nil => rw [if_neg (by rw [length_nil]; omega)]; rfl
  | cons frame frames ih =>
    have hn : (start+0x1000)/0x1000=start/0x1000+1 := by omega
    have hs : mapPages (addrs start (frame::frames).length) (frame::frames) page =
        mapPages (addrs (start+0x1000) frames.length) frames
          (update page (start/0x1000) (some frame)) := by
      rw [length_cons,addrs_succ]
      rfl
    rw [hs,ih (by omega),hn,length_cons]
    by_cases hf : x=start/0x1000
    · subst hf
      rw [if_neg (by omega),if_pos (by omega),update_self,Nat.sub_self,getElem?_cons_zero]
    rw [update_of_ne hf]
    by_cases hin : start/0x1000+1≤x ∧ x < start/0x1000+1+frames.length
    · have hsub : x-start/0x1000=x-(start/0x1000+1) + 1 := by omega
      rw [if_pos hin,if_pos (by omega),hsub,getElem?_cons_succ]
    · rw [if_neg hin,if_neg (by omega)]

private theorem unmapPages_apply (h : start%0x1000=0)
    (hx : x < start/0x1000 ∨ start/0x1000+numFrames≤x) :
    unmapPages (addrs start numFrames) page x=page x := by
  induction numFrames generalizing start page with
  | zero => rfl
  | succ numFrames ih =>
    have hs : unmapPages (addrs start (numFrames+1)) page =
        unmapPages (addrs (start+0x1000) numFrames) (update page (start/0x1000) none) := by
      rw [addrs_succ]
      rfl
    rw [hs,ih (by omega) (by omega),update_of_ne (by omega)]

section Slots
variable {before after : List Mapping}

def Place.Free (low size high : Nat) (mappings : List Mapping) : Place → Prop
  | .gap start before after => before++after=mappings ∧ start%0x1000=0 ∧
      Laid low before start ∧ Laid (start+size) after high
  | .tail start => start%0x1000=0 ∧ Laid low mappings start ∧ start≤high

private theorem findGap_free (hb : Laid low before lastAddress) (ha : Laid lastAddress after high)
    (hal : lastAddress%0x1000=0) (hw : ∀ m∈after, m.Whole) :
    (findGap size lastAddress before after).Free low size high (before++after) := by
  induction after generalizing lastAddress before with
  | nil =>
    rw [append_nil]
    exact ⟨hal,hb,ha⟩
  | cons m after ih =>
    rw [findGap]
    split
    · refine ⟨rfl,hal,hb,?_,ha.2⟩
      omega
    have hm := (hw m mem_cons_self).aligned
    have hl : Laid low (before++[m]) m.stop := laid_append.mpr ⟨lastAddress,hb,ha.1,le_rfl⟩
    have hs : m.stop%0x1000=0 := by
      rw [Mapping.stop]
      omega
    have hr := ih hl ha.2 hs fun x hx => hw x (mem_cons_of_mem m hx)
    rw [append_assoc] at hr
    exact hr

def Grows (numFrames : Nat) (p : Proc) : Prop :=
  ∃ lastAddress, findGap (numFrames*0x1000) userShmLow [] p.mappings = .tail lastAddress ∧
    ¬(p.shmHeap > lastAddress ∧ p.shmHeap-lastAddress ≥ numFrames*0x1000)

structure Proc.Ordered (p : Proc) (frames : Nat → List Nat) : Prop where
  laid : Laid userShmLow p.mappings p.shmHeap
  aligned : p.shmHeap%0x1000=0
  whole : ∀ m∈p.mappings, m.Whole
  has : ∀ m∈p.mappings, m.Has (frames m.chunk) p.page

theorem Proc.Ordered.congr {p : Proc} (h : p.Ordered frames)
    (hs : ∀ m∈p.mappings, frames' m.chunk=frames m.chunk) : p.Ordered frames' := by
  refine ⟨h.laid,h.aligned,h.whole,?_⟩
  intro m hm
  rw [hs m hm]
  exact h.has m hm

private theorem findSlot_spec (h : p.Ordered frames) (hf : numFrames≤2^20 ∨ Grows numFrames p) :
    ∃ start, (findSlot numFrames p).vaddrs=addrs start numFrames ∧ start%0x1000=0 ∧
      (findSlot numFrames p).before++(findSlot numFrames p).after=p.mappings ∧
      (findSlot numFrames p).heap % 0x1000=0 ∧
      Laid userShmLow (findSlot numFrames p).before start ∧
      Laid (start+numFrames*0x1000) (findSlot numFrames p).after (findSlot numFrames p).heap := by
  have hga : (findGap (numFrames*0x1000) userShmLow [] p.mappings).Free userShmLow
      _ p.shmHeap _ :=
    findGap_free le_rfl h.laid (by decide) h.whole
  rw [findSlot]
  cases hp : findGap (numFrames*0x1000) userShmLow [] p.mappings with
  | gap start before after =>
    rw [hp] at hga
    obtain ⟨hap,ha,hb,haf⟩ := hga
    have hs : numFrames≤2^20 := by
      rcases hf with hs | ⟨last,ht,-⟩
      · exact hs
      · rw [hp] at ht
        exact absurd ht Place.noConfusion
    exact ⟨start,gapAddrs_eq hs,ha,hap,h.aligned,hb,haf⟩
  | tail lastAddress =>
    rw [hp] at hga
    obtain ⟨ha,hb,hle⟩ := hga
    by_cases hr : p.shmHeap > lastAddress ∧ p.shmHeap-lastAddress ≥ numFrames*0x1000
    · have hs : numFrames≤2^20 := by
        rcases hf with hs | ⟨last,ht,hg⟩
        · exact hs
        rw [hp] at ht
        cases ht
        exact absurd hr hg
      simp only [if_pos hr]
      refine ⟨lastAddress,gapAddrs_eq hs,ha,append_nil _,h.aligned,hb,?_⟩
      show lastAddress+numFrames*0x1000≤p.shmHeap
      omega
    · have ha := h.aligned
      simp only [if_neg hr,heapAddrs_eq _ _ ha]
      refine ⟨p.shmHeap,rfl,ha,append_nil _,?_,h.laid,le_rfl⟩
      omega

theorem Mapping.Has.frame {m : Mapping} {chunk : List Nat} (h : m.Has chunk page) (stop : Nat)
    (ha : m.stop ≤ start ∨ stop ≤ m.base) (hst : start%0x1000=0) (hsto : stop%0x1000=0)
    (hs : ∀ x, x < start/0x1000 ∨ stop/0x1000≤x → page' x=page x) : m.Has chunk page' := by
  have hlen := h.1
  rw [Mapping.stop] at ha
  refine ⟨hlen,?_⟩
  intro i hi
  rw [hs _ (by omega)]
  exact h.2 i hi

variable {p : Proc}

theorem mapIn_ordered (h : p.Ordered frames) (hc : 0<(frames c).length)
    (hf : (frames c).length≤2^20 ∨ Grows (frames c).length p) :
    (∃ vaddrs, (mapIn c (frames c) p).2.mappings.Perm (⟨c,vaddrs⟩::p.mappings)) ∧
      (mapIn c (frames c) p).2.Ordered frames := by
  obtain ⟨start,hv,ha,hap,hh,hbe,haf⟩ := findSlot_spec h hf
  obtain ⟨hw,hb⟩ := whole_of_addrs hc ha
  have hs : (Mapping.mk c (addrs start (frames c).length)).stop =
      start + (frames c).length * 0x1000 := by
    rw [Mapping.stop,hb,length_addrs]
  have hp : ((findSlot (frames c).length p).before ++
      Mapping.mk c (addrs start (frames c).length)::(findSlot (frames c).length p).after).Perm
        (⟨c,addrs start (frames c).length⟩::p.mappings) := by
    rw [← hap]
    exact perm_middle
  simp only [mapIn,hv]
  refine ⟨⟨_,hp⟩,?_⟩
  -- what was there before is before or after the new pages
  have hold : ∀ m∈p.mappings, m.Whole ∧ m.Has (frames m.chunk)
      (mapPages (addrs start (frames c).length) (frames c) p.page) := by
    intro m hm
    refine ⟨h.whole m hm,(h.has m hm).frame
      (start + (frames c).length * 0x1000) ?_ ha (by omega) ?_⟩
    · rw [← hap] at hm
      rcases mem_append.mp hm with hm | hm
      · exact .inl (hbe.bounds hm).2
      · exact .inr (haf.bounds hm).1
    · intro x hx
      rw [mapPages_apply ha,if_neg (by omega)]
  have hn : (Mapping.mk c (addrs start (frames c).length)).Has (frames c)
      (mapPages (addrs start (frames c).length) (frames c) p.page) := by
    refine ⟨length_addrs,?_⟩
    intro i hi
    rw [hb,mapPages_apply ha,if_pos (by omega),Nat.add_sub_cancel_left]
  refine ⟨?_,hh,?_,?_⟩
  · refine laid_append.mpr ⟨start,hbe,hb.ge,?_⟩
    rw [hs]
    exact haf
  · intro m hm
    rcases mem_cons.mp (hp.mem_iff.mp hm) with rfl | hm
    · exact hw
    · exact (hold m hm).1
  · intro m hm
    rcases mem_cons.mp (hp.mem_iff.mp hm) with rfl | hm
    · exact hn
    · exact (hold m hm).2

theorem Proc.Ordered.remove (h : p.Ordered frames) (hp : p.mappings=before++m::after) :
    Proc.Ordered { p with mappings := before++after } frames := by
  have hsub : ∀ x∈before++after, x∈p.mappings := by
    intro x hx
    rw [hp]
    exact perm_middle.mem_iff.mpr (mem_cons_of_mem m hx)
  have hl := h.laid
  rw [hp] at hl
  exact ⟨hl.remove,h.aligned,fun x hx => h.whole x (hsub x hx),fun x hx => h.has x (hsub x hx)⟩

theorem Proc.Ordered.unmap {m : Mapping} (h : p.Ordered frames) (hp : p.mappings=before++m::after) :
    Proc.Ordered { p with mappings := before++after, page := unmapPages m.vaddrs p.page }
      frames := by
  have hr := h.remove hp
  have hm : m∈p.mappings := by
    rw [hp]
    exact mem_append_right _ mem_cons_self
  have ha := (h.whole m hm).aligned
  have hl := h.laid
  rw [hp] at hl
  obtain ⟨hb,haf⟩ := hl.around
  refine ⟨hr.laid,hr.aligned,hr.whole,?_⟩
  intro x hx
  refine (hr.has x hx).frame m.stop ?_ ha ?_ ?_
  · exact (mem_append.mp hx).imp (hb x) (haf x)
  · rw [Mapping.stop]
    omega
  intro y hy
  rw [Mapping.stop] at hy
  rw [(h.whole m hm).vaddrs]
  exact unmapPages_apply ha (by omega)
end Slots
end RazionOS.Kernel.Shm
