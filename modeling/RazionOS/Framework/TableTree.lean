import Mathlib.Data.List.Basic

/-!
# Trees of tables

Numbered tables whose entries are numbers, of tables or of what is at the leaves; 0 is no number.
A position in the tree is the list of the indices that lead to it, the last one first.
-/

namespace RazionOS.Framework

structure Tables where
  root : Nat → Nat
  table : Nat → Nat → Nat

namespace Tables

variable {t t' : Tables} {isTable : List Nat → Prop}

def entry (t : Tables) : List Nat → Nat
  | [] => 0
  | [s] => t.root s
  | x::y::Q => if t.entry (y::Q)=0 then 0 else t.table (t.entry (y::Q)) x

theorem entry_of_ne (h : t.entry (y::Q)≠0) : t.entry (x::y::Q)=t.table (t.entry (y::Q)) x := by
  rw [entry,if_neg h]

theorem entry_of_eq (h : t.entry (y::Q)=0) : t.entry (x::y::Q)=0 := by
  rw [entry,if_pos h]

/-- One entry is set. If it is to be the number of a table, there was none. -/
theorem entry_set (ht : ∀ x y Q, isTable (x::y::Q) → isTable (y::Q))
    (hr : ∀ s, t'.root s=if w=[s] then v else t.root s)
    (hwo : ∀ x y Q, isTable (y::Q) → t.entry (y::Q)≠0 → t'.table (t.entry (y::Q)) x =
      if w=x::y::Q then v else t.table (t.entry (y::Q)) x)
    (hp : ∀ x y Q, w=x::y::Q → t.entry (y::Q)≠0)
    (hn : isTable w → t.entry w=0 ∧ ∀ x, t'.table v x=0)
    (hP : ∀ x y Q, P=x::y::Q → isTable (y::Q)) :
    t'.entry P=if P≠[] ∧ P=w then v else t.entry P := by
  induction P with
  | nil => rfl
  | cons x Q ih =>
    cases Q with
    | nil => simp [entry,hr,eq_comm]
    | cons y Q =>
      have hQ := hP x y Q rfl
      have he := ih fun a b R hR => ht a b R (hR ▸ hQ)
      by_cases hw : y::Q=w
      · -- the position is in the new table
        have hold := (hn (hw ▸ hQ)).1
        have hPw : x::y::Q≠w := by
          intro heq
          have hlen := congrArg List.length (heq.trans hw.symm)
          simp at hlen
        rw [← hw] at hold
        rw [if_neg (fun h => hPw h.2),entry_of_eq hold]
        rw [if_pos ⟨List.cons_ne_nil y Q,hw⟩] at he
        by_cases hv : t'.entry (y::Q)=0
        · exact entry_of_eq hv
        · rw [entry_of_ne hv,he]
          exact (hn (hw ▸ hQ)).2 x
      · rw [if_neg (fun h => hw h.2)] at he
        by_cases hz : t.entry (y::Q)=0
        · have hPw : x::y::Q≠w := fun heq => hp x y Q heq.symm hz
          rw [if_neg (fun h => hPw h.2),entry_of_eq hz,entry_of_eq (he.trans hz)]
        · have hz' : t'.entry (y::Q)≠0 := by rwa [he]
          rw [entry_of_ne hz',he,hwo x y Q hQ hz,entry_of_ne hz]
          simp [eq_comm]
end Tables
end RazionOS.Framework
