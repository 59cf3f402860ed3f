import Mathlib.Data.Set.Card

/-!
# Shared resources with a use count

Places map resources.  A resource mapped from one place may have count zero; one
with a count is never writable and the count is the number of places that map it.
-/

namespace RazionOS.Framework
open Function

structure Mapping (φ : Type*) where
  frame : φ
  writable : Bool
  cow : Bool
deriving DecidableEq

def Mapping.sole {φ : Type*} (f : φ) : Mapping φ := ⟨f,true,false⟩

def users {ι φ : Type*} (maps : ι → Option (Mapping φ)) (f : φ) : Set ι :=
  {i | ∃ m, maps i=some m ∧ m.frame=f}

open Classical in
noncomputable def without {ι φ : Type*} (maps : ι → Option (Mapping φ)) (D : Set ι) :
    ι → Option (Mapping φ) :=
  fun i => if i∈D then none else maps i

def Tight {ι φ : Type*} (F : Set φ) (maps : ι → Option (Mapping φ)) (used : φ → Prop) : Prop :=
  ∀ f∈F, used f → (users maps f).Nonempty

structure Fits {φ : Type*} (refs : φ → Nat) (used : φ → Prop) (m : Mapping φ) : Prop where
  marked : used m.frame
  writable : m.writable=true → refs m.frame=0
  pending : m.cow=true → m.writable=false ∧ refs m.frame≠0

theorem Fits.congr (hm : Fits refs used m) (hr : refs' m.frame=refs m.frame)
    (hu : used m.frame → used' m.frame) : Fits refs' used' m :=
  ⟨hu hm.marked,fun hw => hr.trans (hm.writable hw),
    fun hc => ⟨(hm.pending hc).1,hr ▸ (hm.pending hc).2⟩⟩

structure Sharing {ι φ : Type*} (maps : ι → Option (Mapping φ)) (refs : φ → Nat)
    (used : φ → Prop) : Prop where
  marked : ∀ i m, maps i=some m → used m.frame
  writable : ∀ i m, maps i=some m → m.writable=true → refs m.frame=0
  pending : ∀ i m, maps i=some m → m.cow=true → m.writable=false ∧ refs m.frame≠0
  single : ∀ f, refs f=0 → (users maps f).Subsingleton
  counted : ∀ f, refs f≠0 → (users maps f).encard=refs f

section Users
variable {maps : ι → Option (Mapping φ)}

theorem mem_users : i∈users maps f ↔ ∃ m, maps i=some m ∧ m.frame=f := Iff.rfl

theorem mem_users_of_maps (h : maps i=some m) : i∈users maps m.frame := ⟨m,h,rfl⟩

theorem notMem_users_of_none (h : maps i=none) : i∉users maps f := by
  rintro ⟨m,hm,-⟩
  rw [h] at hm
  cases hm

theorem notMem_users_of_ne (h : maps i=some m) (hf : f≠m.frame) : i∉users maps f := by
  rintro ⟨m',hm',rfl⟩
  rw [h] at hm'
  cases hm'
  exact hf rfl

namespace Sharing

variable (h : Sharing maps refs used)
include h

theorem users_of_unused (hf : ¬ used f) : users maps f = ∅ := by
  apply Set.eq_empty_of_forall_notMem
  rintro i ⟨m,hm,rfl⟩
  exact hf (h.marked i m hm)

private theorem refs_of_unused (hf : ¬ used f) : refs f=0 := by
  by_contra hr
  have hc := h.counted f hr
  rw [h.users_of_unused hf,Set.encard_empty] at hc
  exact hr (by exact_mod_cast hc.symm)

theorem place_eq (hi : maps i=some m) (hj : maps j=some m') (hf : m.frame=m'.frame)
    (hr : refs m.frame=0) : i=j :=
  h.single m.frame hr (mem_users_of_maps hi) ⟨m',hj,hf.symm⟩

theorem fits (hi : maps i=some m) : Fits refs used m :=
  ⟨h.marked i m hi,h.writable i m hi,h.pending i m hi⟩

theorem used_congr (hu : ∀ i m, maps i=some m → used' m.frame) : Sharing maps refs used' :=
  ⟨hu,h.writable,h.pending,h.single,h.counted⟩
end Sharing

variable [DecidableEq ι]

theorem users_update_of_ne (hi : i∉users maps f) (hb : ∀ m, b=some m → m.frame≠f) :
    users (update maps i b) f=users maps f := by
  ext k
  by_cases hk : k=i
  · subst hk
    simp only [mem_users,update_self]
    constructor
    · rintro ⟨m,hm,hmf⟩
      exact absurd hmf (hb m hm)
    · intro hkf
      exact absurd hkf hi
  · simp [mem_users,update_of_ne hk]

theorem users_update_insert (maps : ι → Option (Mapping φ)) (m : Mapping φ) :
    users (update maps i (some m)) m.frame=insert i (users maps m.frame) := by
  ext k
  by_cases hk : k=i
  · subst hk
    simp [mem_users]
  · simp [mem_users,hk]

theorem users_update_remove (hb : ∀ m, b=some m → m.frame≠f) :
    users (update maps i b) f=users maps f \ {i} := by
  ext k
  by_cases hk : k=i
  · subst hk
    simpa [mem_users] using hb
  · simp [mem_users,hk]

theorem without_insert (maps : ι → Option (Mapping φ)) (D : Set ι) (i : ι) :
    without maps (insert i D)=update (without maps D) i none := by
  funext k
  by_cases hk : k=i
  · subst hk
    simp [without]
  rw [update_of_ne hk,without,without]
  by_cases hD : k∈D
  · rw [if_pos hD,if_pos (Set.mem_insert_of_mem i hD)]
  · have hi : k∉insert i D := by simp [hk,hD]
    rw [if_neg hD,if_neg hi]

omit [DecidableEq ι] in
theorem without_congr (h : ∀ i m, maps i=some m → (i∈D ↔ i∈E)) : without maps D=without maps E := by
  funext k
  unfold without
  cases hk : maps k with
  | none => simp
  | some m =>
    by_cases hD : k∈D
    · rw [if_pos hD,if_pos ((h k m hk).1 hD)]
    · rw [if_neg hD,if_neg fun hE => hD ((h k m hk).2 hE)]
end Users

namespace Sharing

variable [DecidableEq ι] {maps : ι → Option (Mapping φ)} (h : Sharing maps refs used)
include h

theorem change (ho : ∀ k m, k≠i → maps k=some m → Fits refs' used' m)
    (hn : ∀ m, b=some m → Fits refs' used' m)
    (hu : ∀ g, refs' g=refs g ∧ users (update maps i b) g=users maps g ∨
      refs' g=0 ∧ (users (update maps i b) g).Subsingleton ∨
      refs' g≠0 ∧ (users (update maps i b) g).encard=refs' g) :
    Sharing (update maps i b) refs' used' := by
  have hf : ∀ k m, update maps i b k=some m → Fits refs' used' m := by
    intro k m hk
    by_cases hki : k=i
    · subst hki
      rw [update_self] at hk
      exact hn m hk
    · rw [update_of_ne hki] at hk
      exact ho k m hki hk
  refine ⟨fun k m hk => (hf k m hk).marked,fun k m hk => (hf k m hk).writable,
    fun k m hk => (hf k m hk).pending,?_,?_⟩
  · intro g hg
    rcases hu g with ⟨hr,hs⟩ | ⟨-,hs⟩ | ⟨hr,-⟩
    · rw [hs]
      exact h.single g (hr ▸ hg)
    · exact hs
    · exact absurd hg hr
  · intro g hg
    rcases hu g with ⟨hr,hs⟩ | ⟨hr,-⟩ | ⟨-,hs⟩
    · rw [hs,hr]
      exact h.counted g (hr ▸ hg)
    · exact absurd hr hg
    · exact hs

theorem map_fresh (hi : maps i=none) (hf : ¬ used f) (w : Bool) (hu : ∀ g, used' g ↔ used g ∨ g=f) :
    Sharing (update maps i (some ⟨f,w,false⟩)) refs used' := by
  have hr := h.refs_of_unused hf
  apply h.change
  · intro k m _ hk
    exact (h.fits hk).congr rfl fun hus => (hu _).2 (.inl hus)
  · rintro m ⟨⟩
    exact ⟨(hu f).2 (.inr rfl),fun _ => hr,fun hc => nomatch hc⟩
  intro g
  by_cases hg : f=g
  · subst hg
    right; left
    have hin := users_update_insert (i := i) maps ⟨f,w,false⟩
    rw [hin,h.users_of_unused hf]
    exact ⟨hr,by simp⟩
  · left
    refine ⟨rfl,users_update_of_ne (notMem_users_of_none hi) ?_⟩
    rintro m ⟨⟩
    exact hg

theorem unmap_sole (hi : maps i=some m) (hr : refs m.frame=0)
    (hu : ∀ g, used' g ↔ used g ∧ g≠m.frame) : Sharing (update maps i none) refs used' := by
  apply h.change
  · intro k m' hk hm'
    refine (h.fits hm').congr rfl fun hus => (hu _).2 ⟨hus,?_⟩
    intro hf
    exact hk (h.place_eq hm' hi hf (hf ▸ hr))
  · intro m' hm'
    cases hm'
  · intro g
    by_cases hg : g=m.frame
    · subst hg
      right; left
      rw [users_update_remove (by simp)]
      exact ⟨hr,(h.single _ hr).anti Set.sdiff_subset⟩
    · exact .inl ⟨rfl,users_update_of_ne (notMem_users_of_ne hi hg) (by simp)⟩

omit h in
theorem unmap_sole_tight (ht : Tight F maps used) (hi : maps i=some m)
    (hu : ∀ g, used' g ↔ used g ∧ g≠m.frame) : Tight F (update maps i none) used' := by
  intro f hf hus
  have hne := ((hu f).1 hus).2
  rw [users_update_of_ne (notMem_users_of_ne hi hne) (by simp)]
  exact ht f hf ((hu f).1 hus).1

omit [DecidableEq ι] in
theorem encard_users_remove (hi : maps i=some m)
    (hr : refs m.frame=n+1) : (users maps m.frame \ {i}).encard=n := by
  have hc := Set.encard_sdiff_singleton_add_one (mem_users_of_maps hi)
  rw [h.counted m.frame (by omega),hr,Nat.cast_add] at hc
  simpa using hc

theorem unmap_counted [DecidableEq φ] (hi : maps i=some m)
    (hr : refs m.frame=n+1) (hu : ∀ g, used' g ↔ used g ∧ (g=m.frame → n≠0)) :
    Sharing (update maps i none) (update refs m.frame n) used' := by
  have hl := h.encard_users_remove hi hr
  apply h.change
  · intro k m' hk hm'
    by_cases hg : m'.frame=m.frame
    · have hn : n≠0 := by
        intro hn
        rw [hn,Nat.cast_zero,Set.encard_eq_zero] at hl
        have hkm : k∈users maps m.frame \ {i} := ⟨⟨m',hm',hg⟩,hk⟩
        rw [hl] at hkm
        exact hkm
      have hw : m'.writable=false := by
        by_contra hw
        have := h.writable k m' hm' (by simpa using hw)
        rw [hg] at this
        omega
      exact ⟨(hu _).2 ⟨h.marked k m' hm',fun _ => hn⟩,fun hw' => by simp [hw] at hw',
        fun _ => ⟨hw,by simpa [hg] using hn⟩⟩
    · exact (h.fits hm').congr (update_of_ne hg _ _) fun hus =>
        (hu _).2 ⟨hus,fun hg' => absurd hg' hg⟩
  · intro m' hm'
    cases hm'
  · intro g
    by_cases hg : g=m.frame
    · subst hg
      right
      rw [users_update_remove (by simp),update_self,hl]
      by_cases hn : n=0
      · subst hn
        rw [Nat.cast_zero,Set.encard_eq_zero] at hl
        exact .inl ⟨rfl,by simp [hl]⟩
      · exact .inr ⟨hn,rfl⟩
    · left
      exact ⟨update_of_ne hg _ _,users_update_of_ne (notMem_users_of_ne hi hg) (by simp)⟩

theorem unmap_counted_tight (ht : Tight F maps used) (hi : maps i=some m)
    (hr : refs m.frame=n+1) (hu : ∀ g, used' g ↔ used g ∧ (g=m.frame → n≠0)) :
    Tight F (update maps i none) used' := by
  intro f hf hus
  by_cases hfm : f=m.frame
  · subst hfm
    rw [users_update_remove (by simp),← Set.encard_ne_zero,h.encard_users_remove hi hr]
    exact_mod_cast ((hu _).1 hus).2 rfl
  · rw [users_update_of_ne (notMem_users_of_ne hi hfm) (by simp)]
    exact ht f hf ((hu f).1 hus).1

theorem recount [DecidableEq φ] (hi : maps i=some m) (hsub : (users maps m.frame).Subsingleton)
    (hn : n≤1) (hfr : m'.frame=m.frame) (hf : Fits (update refs m.frame n) used m') :
    Sharing (update maps i (some m')) (update refs m.frame n) used := by
  apply h.change
  · intro k m' hk hm'
    have hg : m'.frame≠m.frame := fun hg => hk (hsub ⟨m',hm',hg⟩ (mem_users_of_maps hi))
    exact (h.fits hm').congr (update_of_ne hg _ _) id
  · rintro _ ⟨⟩
    exact hf
  intro g
  by_cases hg : g=m.frame
  · subst hg
    right
    have ho : users (update maps i (some m')) m.frame = {i} := by
      rw [← hfr,users_update_insert,hfr,hsub.eq_singleton_of_mem (mem_users_of_maps hi)]
      simp
    rw [ho,update_self]
    obtain rfl | rfl := Nat.le_one_iff_eq_zero_or_eq_one.1 hn
    · exact .inl ⟨rfl,Set.subsingleton_singleton⟩
    · exact .inr (by simp)
  · left
    refine ⟨update_of_ne hg _ _,users_update_of_ne (notMem_users_of_ne hi hg) ?_⟩
    rintro _ ⟨⟩
    rw [hfr]
    exact Ne.symm hg

theorem remap_sole (hi : maps i=some m) (hr : refs m.frame=0)
    (w : Bool) : Sharing (update maps i (some ⟨m.frame,w,false⟩)) refs used := by
  classical
  have hs : update refs m.frame 0=refs := by rw [← hr,update_eq_self]
  rw [← hs]
  exact h.recount hi (h.single _ hr) (Nat.zero_le 1) rfl
    ⟨h.marked i m hi,fun _ => by simp,fun hc => nomatch hc⟩

section
variable [DecidableEq φ] (hi : maps i=some m)
include hi

theorem count_one (hr : refs m.frame=0) (c : Bool) :
    Sharing (update maps i (some ⟨m.frame,false,c⟩)) (update refs m.frame 1) used :=
  h.recount hi (h.single _ hr) le_rfl rfl
    ⟨h.marked i m hi,fun hw => (nomatch hw),fun _ => ⟨rfl,by simp⟩⟩

theorem uncount_one (hr : refs m.frame=1) (w : Bool) :
    Sharing (update maps i (some ⟨m.frame,w,false⟩)) (update refs m.frame 0) used := by
  have hca := h.counted m.frame (by omega)
  rw [hr] at hca
  exact h.recount hi (Set.encard_le_one_iff_subsingleton.1 hca.le) (Nat.zero_le 1) rfl
    ⟨h.marked i m hi,fun _ => by simp,fun hc => nomatch hc⟩

theorem map_counted (hr : refs m.frame=n) (hn : n≠0) (hj : maps j=none) :
    Sharing (update maps j (some m)) (update refs m.frame (n+1)) used := by
  have hs : ∀ k m', maps k=some m' → m'.frame=m.frame → m'.writable=false := by
    intro k m' hm' hg
    by_contra hw
    have := h.writable k m' hm' (by simpa using hw)
    rw [hg,hr] at this
    exact hn this
  have hf : ∀ k m', maps k=some m' → Fits (update refs m.frame (n+1)) used m' := by
    intro k m' hm'
    by_cases hg : m'.frame=m.frame
    · have hw := hs k m' hm' hg
      exact ⟨h.marked k m' hm',fun hw' => by simp [hw] at hw',fun _ => ⟨hw,by simp [hg]⟩⟩
    · exact (h.fits hm').congr (update_of_ne hg _ _) id
  apply h.change
  · intro k m' _ hm'
    exact hf k m' hm'
  · rintro m' ⟨⟩
    exact hf i m hi
  intro g
  by_cases hg : g=m.frame
  · subst hg
    rw [users_update_insert,Set.encard_insert_of_notMem (notMem_users_of_none hj),
      h.counted _ (hr ▸ hn),hr]
    simp
  · left
    refine ⟨update_of_ne hg _ _,users_update_of_ne (notMem_users_of_none hj) ?_⟩
    rintro m' ⟨⟩
    exact Ne.symm hg

end

end Sharing
end RazionOS.Framework
