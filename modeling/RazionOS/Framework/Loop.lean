import Mathlib.Init

/-! # Loops that may fail -/

namespace RazionOS.Framework

variable {ε σ α β : Type}

theorem bind_eq_ok {f : α → Except ε β} : x >>= f = .ok b ↔ ∃ a, x = .ok a ∧ f a = .ok b := by
  cases x <;> simp [bind,Except.bind]

@[simp] theorem ok_bind (a : α) (f : α → Except ε β) : Except.ok a >>= f=f a := rfl

@[simp] theorem error_bind (f : α → Except ε β) : .error e >>= f = .error e := rfl

@[simp] theorem pure_eq_ok : (pure a : Except ε α) = .ok a := rfl

/-- What a computation yields, a result or a failure, is as it should be. -/
inductive Yields (E : ε → Prop) (Q : α → Prop) : Except ε α → Prop
  | ok (h : Q a) : Yields E Q (.ok a)
  | error (h : E e) : Yields E Q (.error e)

namespace Yields

variable {E : ε → Prop} {P Q : α → Prop} {x : Except ε α}

theorem of_ok (h : Yields E Q x) (hx : x = .ok a) : Q a := by
  cases h with
  | ok ha =>
    cases hx
    exact ha
  | error => cases hx

theorem of_error (h : Yields E Q x) (hx : x = .error e) : E e := by
  cases h with
  | ok => cases hx
  | error he =>
    cases hx
    exact he

theorem of_forall (h : ∀ a, x = .ok a → Q a) : Yields (fun _ => True) Q x := by
  cases x with
  | ok a => exact .ok (h a rfl)
  | error e => exact .error trivial

theorem and_ok (h : Yields E P x) (hQ : ∀ a, x = .ok a → Q a) : Yields E Q x := by
  cases h with
  | ok => exact .ok (hQ _ rfl)
  | error he => exact .error he

theorem mono (h : Yields E P x) (hPQ : ∀ a, P a → Q a) : Yields E Q x :=
  h.and_ok fun a hx => hPQ a (h.of_ok hx)

theorem bind (hx : Yields E P x) (hf : ∀ a, P a → Yields E R (f a)) : Yields E R (x >>= f) := by
  cases hx with
  | ok ha => exact hf _ ha
  | error he => exact .error he

theorem map (hx : Yields E P x) (hf : ∀ a, P a → R (f a)) : Yields E R (x.map f) := by
  cases hx with
  | ok ha => exact .ok (hf _ ha)
  | error he => exact .error he

theorem guard [Decidable p] (h : p → Yields E (fun _ => True) x) :
    Yields E (fun _ => True) (if p then x else .ok a) := by
  split
  · exact h ‹p›
  · exact .ok trivial

theorem exists_ok (h : Yields (fun _ => False) Q x) : ∃ a, x = .ok a ∧ Q a := by
  cases h with
  | ok ha => exact ⟨_,rfl,ha⟩
  | error he => exact he.elim

instance [DecidablePred E] [DecidablePred Q] : Decidable (Yields E Q x) :=
  match x with
  | .ok a => decidable_of_iff (Q a) ⟨.ok,fun h => h.of_ok rfl⟩
  | .error e => decidable_of_iff (E e) ⟨.error,fun h => h.of_error rfl⟩
end Yields

def forRange (body : Nat → σ → Except ε σ) : Nat → σ → Except ε σ
  | 0, s => .ok s
  | n+1, s => do
    let s ← forRange body n s
    body n s

/-- The rounds `0, …, n - 1`, left early by a round that answers `false`. -/
def forRangeWhile (body : Nat → σ → Except ε (Bool × σ)) : Nat → σ → Except ε (Bool × σ)
  | 0, s => .ok (true, s)
  | n+1, s => do
    let r ← forRangeWhile body n s
    if r.1 then body n r.2 else .ok r

theorem forRange_yields (P : Nat → σ → Prop) (h0 : P 0 s)
    (hs : ∀ i s, i<n → P i s → Yields E (P (i+1)) (body i s)) :
    Yields E (P n) (forRange body n s) := by
  induction n with
  | zero => exact .ok h0
  | succ n ih =>
    have hf := ih fun i s hi => hs i s (by omega)
    exact hf.bind fun s1 h1 => hs n s1 (by omega) h1

theorem forRange_invariant {body : Nat → σ → Except ε σ} (P : Nat → σ → Prop) (h0 : P 0 s)
    (hst : ∀ i s s', i<n → P i s → body i s = .ok s' → P (i+1) s')
    (h : forRange body n s = .ok s') : P n s' :=
  (forRange_yields P h0 fun i s hi hs => .of_forall fun s' => hst i s s' hi hs).of_ok h

theorem forRange_fails (n : Nat) (s : σ) (h : ∀ i s, Yields E (fun _ => True) (body i s)) :
    Yields E (fun _ => True) (forRange body n s) :=
  forRange_yields (fun _ _ => True) trivial fun i s _ _ => h i s

theorem forRangeWhile_yields (P : Nat → σ → Prop) (Q : σ → Prop) (h0 : P 0 s)
    (hs : ∀ i s, i<n → P i s → Yields E (fun r => if r.1 then P (i+1) r.2 else Q r.2) (body i s)) :
    Yields E (fun r => if r.1 then P n r.2 else Q r.2) (forRangeWhile body n s) := by
  induction n with
  | zero => exact .ok h0
  | succ n ih =>
    have hf := ih fun i s hi => hs i s (by omega)
    refine hf.bind ?_
    rintro ⟨go,s1⟩ h1
    cases go with
    | false => exact .ok h1
    | true => exact hs n s1 (by omega) h1

theorem forRangeWhile_invariant {body : Nat → σ → Except ε (Bool × σ)} (P : Nat → σ → Prop)
    (h0 : P 0 s) (hst : ∀ i s s', i<n → P i s → body i s = .ok (true, s') → P (i+1) s')
    (h : forRangeWhile body n s = .ok (true, s')) : P n s' := by
  refine (forRangeWhile_yields P (fun _ => True) h0 fun i s hi hs => .of_forall ?_).of_ok h
  rintro ⟨_ | _,s'⟩ hb
  · trivial
  · exact hst i s s' hi hs hb
end RazionOS.Framework
