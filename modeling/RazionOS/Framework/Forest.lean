import Mathlib.Logic.Relation
import Mathlib.Order.Basic

/-! # Forests by rank -/

namespace RazionOS.Framework
open Relation

variable (rank : α → Nat)

private theorem rank_lt_of_transGen (hR : ∀ a b, R a b → rank a < rank b) (h : TransGen R a b) :
    rank a < rank b := by
  induction h with
  | single h => exact hR _ _ h
  | tail _ h ih => exact Nat.lt_trans ih (hR _ _ h)

theorem acyclic_of_rank (hR : ∀ a b, R a b → rank a < rank b) (a : α) : ¬ TransGen R a a :=
  fun h => Nat.lt_irrefl _ (rank_lt_of_transGen rank hR h)

theorem reachable_of_rank (live : α → Prop) (hR : ∀ a b, R a b → rank a < rank b)
    (hp : ∀ b, live b → b≠root → ∃ a, live a ∧ R a b) (hb : live b) : ReflTransGen R root b := by
  induction hn : rank b using Nat.strongRecOn generalizing b with
  | _ n ih =>
    by_cases hr : b=root
    · exact hr ▸ .refl
    · obtain ⟨a,ha,hab⟩ := hp b hb hr
      exact (ih (rank a) (hn ▸ hR a b hab) ha rfl).tail hab
end RazionOS.Framework
