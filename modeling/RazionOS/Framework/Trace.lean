import Mathlib.Data.List.Induction

/-!
# Laws over traces

A trace is the list of events of a run, oldest first. A law says of every event what the
events before it must have been. A computation that records its events emits those of a set
if it adds no others to the trace it is given.
-/

namespace RazionOS.Framework
open List

def Always (P : List α → α → Prop) (t : List α) : Prop :=
  ∀ before e after, t=before++e::after → P before e

namespace Always

theorem nil : Always P [] := by
  intro before e after h
  simp at h

theorem concat (ht : Always P t) (he : P t e) : Always P (t++[e]) := by
  intro before e' after h
  rcases eq_nil_or_concat after with rfl | ⟨after,last,rfl⟩
  · obtain ⟨rfl,hl⟩ := append_inj' h rfl
    obtain rfl := singleton_inj.mp hl
    exact he
  · have h' : t++[e]=(before++e' :: after)++[last] := by simpa using h
    exact ht before e' after (append_inj' h' rfl).1

private theorem init (ht : Always P (t++u)) : Always P t := by
  intro before e after h
  exact ht before e (after++u) (by simp [h])

private theorem last (ht : Always P (t++[e])) : P t e := ht t e [] rfl

/-- What an event may not have in common with an earlier one occurs once in the trace. -/
theorem nodup_filterMap (f : α → Option β) (ht : Always P t)
    (hP : ∀ before e b, P before e → f e=some b → ∀ e' ∈ before, f e' ≠ some b) :
    (t.filterMap f).Nodup := by
  induction t using reverseRecOn with
  | nil => simp
  | append_singleton t e ih =>
    rw [filterMap_append,nodup_append]
    refine ⟨ih ht.init,?_,?_⟩
    · cases h : f e <;> simp [h]
    intro b hb c hc hbc
    obtain ⟨e',he',hfe'⟩ := mem_filterMap.mp hb
    have hfe : f e=some c := by simpa using hc
    exact hP t e c ht.last hfe e' he' (hbc ▸ hfe')
end Always

structure Traced (σ ε : Type) where
  env : σ
  trace : List ε

section Traced
variable {σ ε β γ : Type}

def Traced.emit (w : Traced σ ε) (e : ε) : Traced σ ε := { w with trace := w.trace++[e] }

def call (e : ε) (f : σ → β × σ) : StateM (Traced σ ε) β := fun w =>
  ((f w.env).1, ⟨(f w.env).2,w.trace++[e]⟩)

def observe (f : σ → β × σ) : StateM (Traced σ ε) β := fun w =>
  ((f w.env).1, ⟨(f w.env).2,w.trace⟩)

def Emits (S : ε → Prop) (m : StateM (Traced σ ε) β) : Prop :=
  ∀ w, ∀ e∈(m w).2.trace, e∈w.trace ∨ S e

namespace Emits

theorem pure (b : β) : Emits S (Pure.pure b : StateM (Traced σ ε) β) := fun _ _ he => .inl he

theorem call {e : ε} (f : σ → β × σ) (he : S e) : Emits S (call e f) := by
  intro w e' he'
  rcases mem_append.mp he' with h | h
  · exact .inl h
  · obtain rfl := mem_singleton.mp h
    exact .inr he

theorem of_forall (h : ∀ e, S e) : Emits S m :=
  fun _ e _ => .inr (h e)

theorem of_unchanged {m : StateM (Traced σ ε) β} (h : ∀ w, (m w).2=w) : Emits S m := by
  intro w e he
  rw [h] at he
  exact .inl he

theorem mono (hm : Emits S m) (h : ∀ e, S e → T e) : Emits T m :=
  fun w e he => (hm w e he).imp_right (h e)

theorem observe (f : σ → β × σ) : Emits S (observe f) := fun _ _ he => .inl he

theorem bind (hm : Emits S m) (hk : ∀ b, Emits S (k b)) : Emits S (m >>= k) := by
  intro w e he
  rcases hk (m w).1 (m w).2 e he with h | h
  · exact hm w e h
  · exact .inr h

theorem ite [Decidable c] (hm : Emits S m) (hn : Emits S n) : Emits S (if c then m else n) := by
  split
  · exact hm
  · exact hn
end Emits
end Traced
end RazionOS.Framework
