import Mathlib.Data.List.Nodup

/-!
# Linked lists

A list that is given by a function from each node to the next one. As a node to start from,
`none` is the anchor of the list; as a next node it is the end.
-/

namespace RazionOS.Framework
open List

variable {p q : Option ν} {l A B : List ν} {next : Option ν → Option ν}

/-- The nodes after `p`, in their order. -/
def LinkedFrom (next : Option ν → Option ν) : Option ν → List ν → Prop
  | p, [] => next p=none
  | p, x::l => next p=some x ∧ LinkedFrom next (some x) l

def Linked (next : Option ν → Option ν) (l : List ν) : Prop := LinkedFrom next none l

namespace LinkedFrom

theorem congr (h : LinkedFrom next p l) (hp : next' q=next p)
    (hl : ∀ x∈l, next' (some x)=next (some x)) : LinkedFrom next' q l := by
  induction l generalizing p q with
  | nil => exact hp.trans h
  | cons x l ih =>
    have hx := hl x mem_cons_self
    exact ⟨hp.trans h.1,ih h.2 hx fun y hy => hl y (mem_cons_of_mem x hy)⟩

private theorem unique (h : LinkedFrom next p l) (h' : LinkedFrom next p l') : l=l' := by
  induction l generalizing p l' with
  | nil =>
    cases l' with
    | nil => rfl
    | cons y l' =>
      have hp : next p=none := h
      rw [h'.1] at hp
      cases hp
  | cons x l ih =>
    cases l' with
    | nil =>
      have hp : next p=none := h'
      rw [h.1] at hp
      cases hp
    | cons y l' =>
      have hxy := h.1.symm.trans h'.1
      cases hxy
      rw [ih h.2 h'.2]

theorem drop (h : LinkedFrom next p (A++x::B)) : LinkedFrom next (some x) B := by
  induction A generalizing p with
  | nil => exact h.2
  | cons y A ih => exact ih h.2

theorem next_eq (h : LinkedFrom next p l) : next p=l.head? := by
  cases l with
  | nil => exact h
  | cons x l => exact h.1

theorem not_mem (h : LinkedFrom next (some x) l) : x∉l := by
  intro hx
  -- what comes after `x` would be a proper part of itself
  obtain ⟨A,B,rfl⟩ := append_of_mem hx
  have hlen := congrArg length (h.unique h.drop)
  simp only [length_append,length_cons] at hlen
  omega

private theorem nodup (h : LinkedFrom next p l) : l.Nodup := by
  induction l generalizing p with
  | nil => exact nodup_nil
  | cons x l ih => exact nodup_cons.2 ⟨h.2.not_mem,ih h.2⟩

theorem getLast?_cons_or (y : ν) (A : List ν) (p : Option ν) :
    (y::A).getLast?.or p=A.getLast?.or (some y) := by
  rw [getLast?_cons]
  cases A.getLast? <;> rfl

private theorem append_right (h : LinkedFrom next p (A++B)) :
    LinkedFrom next (A.getLast?.or p) B := by
  induction A generalizing p with
  | nil => exact h
  | cons y A ih =>
    rw [getLast?_cons_or]
    exact ih h.2

private theorem last_ne (h : LinkedFrom next p (x::A++B)) : (x::A).getLast?.or p≠p := by
  intro hl
  have hmem : (x::A).getLast (cons_ne_nil x A)∈x::A++B := mem_append_left _ (getLast_mem _)
  rw [← hl] at h
  exact h.not_mem hmem

theorem ne_of_mem (h : LinkedFrom next p l) (hx : x∈l) : some x≠p := by
  rintro rfl
  exact h.not_mem hx

/-- What comes after `A` is linked in another way, and nothing changes before the end of `A`. -/
theorem replace_right (h : LinkedFrom next p (A++B)) (hB : LinkedFrom next' (A.getLast?.or p) B')
    (hA : ∀ q, q=p ∨ (∃ y∈A, q=some y) → q≠A.getLast?.or p → next' q=next q) :
    LinkedFrom next' p (A++B') := by
  induction A generalizing p with
  | nil => exact hB
  | cons a A ih =>
    have hne := h.last_ne
    rw [getLast?_cons_or] at hB hA hne
    refine ⟨(hA p (.inl rfl) hne.symm).trans h.1,ih h.2 hB fun q hq => hA q (.inr ?_)⟩
    rcases hq with rfl | ⟨y,hy,rfl⟩
    · exact ⟨a,mem_cons_self,rfl⟩
    · exact ⟨y,mem_cons_of_mem a hy,rfl⟩

theorem of_range (hp : next p=some (f m)) (hn : ∀ i < m+n, next (some (f i))=some (f (i+1)))
    (hl : next (some (f (m+n)))=none) : LinkedFrom next p ((range' m (n+1)).map f) := by
  induction n generalizing m p with
  | zero => exact ⟨hp,hl⟩
  | succ n ih =>
    refine ⟨hp,ih (hn m (by omega)) ?_ ?_⟩
    · intro i hi
      exact hn i (by omega)
    · rwa [Nat.add_right_comm]
end LinkedFrom

namespace Linked

theorem congr (h : Linked next l) (hn : next' none=next none)
    (hl : ∀ x∈l, next' (some x)=next (some x)) : Linked next' l :=
  LinkedFrom.congr h hn hl

theorem nodup (h : Linked next l) : l.Nodup := LinkedFrom.nodup h

theorem last (h : Linked next (A++B)) : LinkedFrom next A.getLast? B := by
  have hl := LinkedFrom.append_right h
  rwa [Option.or_none] at hl

theorem next_last (h : Linked next (A++B)) : next A.getLast? = B.head? := h.last.next_eq

theorem next_mem (h : Linked next (A++x::B)) : next (some x)=B.head? := (LinkedFrom.drop h).next_eq

theorem replace_right (h : Linked next (A++B)) (hB : LinkedFrom next' A.getLast? B')
    (hA : ∀ q, q=none ∨ (∃ y∈A, q=some y) → q≠A.getLast? → next' q=next q) :
    Linked next' (A++B') := by
  apply LinkedFrom.replace_right h <;> rwa [Option.or_none]

theorem insert (h : Linked next (A++B)) (hl : next' A.getLast? = some x)
    (hn : next' (some x)=next A.getLast?)
    (ho : ∀ q, q=none ∨ (∃ y∈A++B, q=some y) → q≠A.getLast? → next' q=next q) :
    Linked next' (A++x::B) := by
  refine h.replace_right ⟨hl,h.last.congr hn fun y hy => ?_⟩ fun q hq => ?_
  · exact ho _ (.inr ⟨y,mem_append_right A hy,rfl⟩) (h.last.ne_of_mem hy)
  · exact ho q (hq.imp_right fun ⟨y,hy,heq⟩ => ⟨y,mem_append_left B hy,heq⟩)

theorem remove (h : Linked next (A++x::B)) (hl : next' A.getLast? = next (some x))
    (ho : ∀ q, q=none ∨ (∃ y∈A++B, q=some y) → q≠A.getLast? → next' q=next q) :
    Linked next' (A++B) := by
  refine h.replace_right (h.last.2.congr hl fun y hy => ?_) fun q hq => ?_
  · exact ho _ (.inr ⟨y,mem_append_right A hy,rfl⟩) (h.last.ne_of_mem (mem_cons_of_mem x hy))
  · exact ho q (hq.imp_right fun ⟨y,hy,heq⟩ => ⟨y,mem_append_left B hy,heq⟩)

theorem append (h : Linked next A) (h' : Linked next' B) (hl : next'' A.getLast? = next' none)
    (hA : ∀ r, r=none ∨ (∃ y∈A, r=some y) → r≠A.getLast? → next'' r=next r)
    (hB : ∀ y∈B, next'' (some y)=next' (some y)) : Linked next'' (A++B) := by
  rw [← append_nil A] at h
  exact h.replace_right (LinkedFrom.congr h' hl hB) hA
end Linked
end RazionOS.Framework
