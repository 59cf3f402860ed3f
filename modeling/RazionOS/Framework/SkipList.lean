import Mathlib.Data.List.Nodup

/-! # Levels of a sorted list -/

namespace RazionOS.Framework
open List

open scoped List

def Ascending (key : ν → Nat) (l : List ν) : Prop := l.Pairwise fun x y => key x≤key y
def below (key : ν → Nat) (k : Nat) (l : List ν) : List ν := l.filter fun x => key x<k
def notBelow (key : ν → Nat) (k : Nat) (l : List ν) : List ν := l.filter fun x => k≤key x

theorem mem_below : x∈below key k l ↔ x∈l ∧ key x<k := by
  simp [below]

theorem mem_notBelow : x∈notBelow key k l ↔ x∈l ∧ k≤key x := by
  simp [notBelow]

private theorem Ascending.append_eq (h : Ascending key l) : below key k l++notBelow key k l=l := by
  induction l with
  | nil => rfl
  | cons x l ih =>
    obtain ⟨hx,hl⟩ := pairwise_cons.1 h
    by_cases hk : key x<k
    · have hb : below key k (x::l)=x::below key k l := by simp [below,hk]
      have hr : notBelow key k (x::l)=notBelow key k l := by
        simp [notBelow,Nat.not_le.2 hk]
      rw [hb,hr,cons_append,ih hl]
    have ha : ∀ y∈x::l, k≤key y := by
      intro y hy
      rcases mem_cons.1 hy with rfl | hy
      · omega
      · have := hx y hy
        omega
    have hb : below key k (x::l)=[] := by
      apply filter_eq_nil_iff.2
      intro y hy
      simpa using ha y hy
    have hr : notBelow key k (x::l)=x::l := by
      apply filter_eq_self.2
      intro y hy
      simpa using ha y hy
    rw [hb,hr,nil_append]

/-- The last node of a shorter list below a key is one of the longer list too. -/
theorem exists_getLast?_below (hsub : l' <+ l) (k : Nat) :
    ∃ A B, below key k l=A++B ∧ A.getLast? = (below key k l').getLast? := by
  cases hl : (below key k l').getLast? with
  | none => exact ⟨[],below key k l,rfl,rfl⟩
  | some y =>
    have hy : y∈below key k l := (hsub.filter _).subset (mem_of_getLast? hl)
    obtain ⟨A,B,hs⟩ := append_of_mem hy
    exact ⟨A++[y],B,by simp [hs],by simp⟩

structure Levels (key : ν → Nat) (levels : Nat → List ν) : Prop where
  ascending : Ascending key (levels 0)
  sub : ∀ i, levels (i+1) <+ levels i

def insertAt (key : ν → Nat) (x : ν) (n : Nat) (levels : Nat → List ν) (i : Nat) : List ν :=
  if i<n then below key (key x) (levels i)++x::notBelow key (key x) (levels i)
  else levels i

theorem mem_insertAt : y∈insertAt key x n levels i ↔ i<n ∧ y=x ∨ y∈levels i := by
  unfold insertAt
  by_cases hi : i<n
  · have hs : y∈levels i ↔ y∈below key (key x) (levels i) ∨
        y∈notBelow key (key x) (levels i) := by
      rw [mem_below,mem_notBelow,← and_or_left]
      exact (and_iff_left (Nat.lt_or_ge _ _)).symm
    rw [if_pos hi,mem_append,mem_cons]
    tauto
  · rw [if_neg hi]
    tauto

def eraseFrom [DecidableEq ν] (x : ν) (levels : Nat → List ν) (i : Nat) : List ν :=
  (levels i).filter (· ≠ x)

namespace Levels

variable {levels : Nat → List ν} (h : Levels key levels)
include h

theorem sub_of_le (hij : i≤j) : levels j <+ levels i := by
  induction hij with
  | refl => exact List.Sublist.refl _
  | step _ ih => exact (h.sub _).trans ih

theorem sub_zero (i : Nat) : levels i <+ levels 0 := h.sub_of_le (Nat.zero_le i)

private theorem ascending_at : Ascending key (levels i) :=
  List.Pairwise.sublist (h.sub_zero i) h.ascending

theorem append_eq (k i : Nat) : below key k (levels i)++notBelow key k (levels i)=levels i :=
  (h.ascending_at).append_eq

theorem insert (x : ν) (n : Nat) : Levels key (insertAt key x n levels) := by
  constructor
  · unfold insertAt
    split
    swap
    · exact h.ascending
    have hb : ∀ y∈below key (key x) (levels 0), key y<key x :=
      fun y hy => (mem_below.1 hy).2
    have hr : ∀ y∈notBelow key (key x) (levels 0), key x≤key y :=
      fun y hy => (mem_notBelow.1 hy).2
    apply pairwise_append.2
    refine ⟨h.ascending.filter _,pairwise_cons.2 ⟨hr,h.ascending.filter _⟩,?_⟩
    intro y hy z hz
    have hyx := hb y hy
    rcases mem_cons.1 hz with rfl | hz
    · omega
    · have := hr z hz
      omega
  · intro i
    unfold insertAt
    by_cases hi : i+1<n
    · rw [if_pos hi,if_pos (by omega)]
      exact ((h.sub i).filter _).append (((h.sub i).filter _).cons_cons x)
    rw [if_neg hi]
    split
    · apply (h.sub i).trans
      nth_rewrite 1 [← h.append_eq]
      exact (List.Sublist.refl _).append (sublist_cons_self _ _)
    · exact h.sub i

theorem erase [DecidableEq ν] (x : ν) : Levels key (eraseFrom x levels) :=
  ⟨h.ascending.filter _,fun i => (h.sub i).filter _⟩

/-- Where a first node that is not below a key stands in the levels that have it. -/
theorem first [DecidableEq ν] (hnd : (levels 0).Nodup) (hf : notBelow key k (levels 0)=x::R)
    (hx : x∈levels i) :
    ∃ R', levels i=below key (key x) (levels i)++x::R' ∧
      eraseFrom x levels i=below key (key x) (levels i)++R' := by
  have hkx : k≤key x := by
    have hmem := hf ▸ mem_cons_self
    exact (mem_notBelow.1 hmem).2
  have hr : notBelow key (key x) (levels 0) <+ x::R := by
    rw [← hf]
    apply monotone_filter_right
    intro y hy
    simp only [decide_eq_true_eq] at hy ⊢
    omega
  have hR : x∉R := by
    have : (x::R).Nodup := hf ▸ hnd.filter _
    exact (nodup_cons.1 this).1
  have hsub : notBelow key (key x) (levels i) <+ x::R := ((h.sub_zero i).filter _).trans hr
  have hmem : x∈notBelow key (key x) (levels i) := mem_notBelow.2 ⟨hx,Nat.le_refl _⟩
  cases hli : notBelow key (key x) (levels i) with
  | nil =>
    rw [hli] at hmem
    cases hmem
  | cons z R' =>
    rw [hli] at hsub hmem
    have hz : z=x := by
      by_contra hne
      have hsub' : z::R' <+ R := by
        cases hsub with
        | cons _ hsub => exact hsub
        | cons_cons _ hsub => exact absurd rfl hne
      exact hR (hsub'.subset hmem)
    subst hz
    have hs := h.append_eq (key z) i
    rw [hli] at hs
    refine ⟨R',hs.symm,?_⟩
    have hR' : z∉R' := by
      have : (z::R').Nodup := hli ▸ ((hnd.sublist (h.sub_zero i)).filter _)
      exact (nodup_cons.1 this).1
    have hb : z∉below key (key z) (levels i) := fun hz => by
      have := (mem_below.1 hz).2
      omega
    have hk : ∀ l : List ν, z∉l → l.filter (· ≠ z)=l := by
      intro l hl
      apply filter_eq_self.2
      intro y hy
      have hyz : y≠z := fun hyz => hl (hyz ▸ hy)
      simpa using hyz
    have he : eraseFrom z levels i=(below key (key z) (levels i)++z::R').filter (· ≠ z) := by
      rw [hs]
      rfl
    rw [he,filter_append,hk _ hb,filter_cons_of_neg (by simp),hk _ hR']
end Levels
end RazionOS.Framework
