import Mathlib.Data.List.Nodup

/-!
# Custody

Places hold tokens, each token in at most one place and there once. A token enters as a new
one, moves from the front of one place to the back of another, and leaves from the front.
-/

namespace RazionOS.Framework
open Function List

variable {ι α : Type*} {o o' : ι}

structure Custody (held : ι → List α) (live : α → Prop) : Prop where
  nodup : ∀ o, (held o).Nodup
  exclusive : ∀ {a o o'}, a∈held o → a∈held o' → o=o'
  isLive : ∀ {a o}, a∈held o → live a

namespace Custody

theorem mono (h : Custody held live) (hl : ∀ a, live a → live' a) : Custody held live' :=
  ⟨h.nodup,h.exclusive,fun ha => hl _ (h.isLive ha)⟩

variable [DecidableEq ι]

theorem append (h : Custody held live) (hn : ∀ o, a∉held o) (ha : live a) :
    Custody (update held o (held o++[a])) live := by
  have hmem : ∀ {b q}, b∈update held o (held o++[a]) q → b∈held q ∨ b=a ∧ q=o := by
    intro b q hb
    by_cases hq : q=o
    · subst hq
      rw [update_self,mem_append,mem_singleton] at hb
      exact hb.imp_right fun hb => ⟨hb,rfl⟩
    · rw [update_of_ne hq] at hb
      exact .inl hb
  refine ⟨fun q => ?_,fun {b q q'} hb hb' => ?_,fun hb => ?_⟩
  · by_cases hq : q=o
    · subst hq
      rw [update_self,← concat_eq_append]
      exact (h.nodup q).concat (hn q)
    · rw [update_of_ne hq]
      exact h.nodup q
  · obtain hold | ⟨rfl,rfl⟩ := hmem hb <;> obtain hold' | ⟨heq,rfl⟩ := hmem hb'
    · exact h.exclusive hold hold'
    · exact absurd (heq ▸ hold) (hn q)
    · exact absurd hold' (hn q')
    · rfl
  · obtain hb | ⟨rfl,-⟩ := hmem hb
    · exact h.isLive hb
    · exact ha

theorem tail (h : Custody held live) (ho : held o=a::rest) :
    Custody (update held o rest) (fun b => live b ∧ b≠a) ∧ ∀ q, a∉update held o rest q := by
  have hnd := h.nodup o
  rw [ho,nodup_cons] at hnd
  have hmem : ∀ {b q}, b∈update held o rest q → b∈held q := by
    intro b q hb
    by_cases hq : q=o
    · subst hq
      rw [update_self] at hb
      exact ho ▸ mem_cons_of_mem a hb
    · rwa [update_of_ne hq] at hb
  have hg : ∀ q, a∉update held o rest q := by
    intro q hq
    obtain rfl := h.exclusive (hmem hq) (ho ▸ mem_cons_self : a∈held o)
    rw [update_self] at hq
    exact hnd.1 hq
  refine ⟨⟨fun q => ?_,fun hb hb' => h.exclusive (hmem hb) (hmem hb'),fun {b q} hb => ?_⟩,hg⟩
  · by_cases hq : q=o
    · subst hq
      rw [update_self]
      exact hnd.2
    · rw [update_of_ne hq]
      exact h.nodup q
  · refine ⟨h.isLive (hmem hb),?_⟩
    rintro rfl
    exact hg q hb

theorem move (h : Custody held live) (ho : held o=a::rest) (hne : o' ≠ o) :
    Custody (update (update held o rest) o' (held o' ++ [a])) live := by
  obtain ⟨ht,hg⟩ := h.tail ho
  have ha := h.isLive (ho ▸ mem_cons_self : a∈held o)
  have := (ht.mono fun b hb => hb.1).append (o := o') hg ha
  rwa [update_of_ne hne] at this
end Custody
end RazionOS.Framework
