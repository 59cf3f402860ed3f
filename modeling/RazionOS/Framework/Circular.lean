import Mathlib.Data.List.Basic

/-!
# Circular windows

Positions below a size, advanced by one with a wrap to zero. A window reads consecutive
positions of a buffer from a start.
-/

namespace RazionOS.Framework.Circular
open Function

def next (size i : Nat) : Nat := if i+1=size then 0 else i+1

/-- The number of positions from `r` up to, not including, `w`. -/
def distance (size r w : Nat) : Nat :=
  if r=w then 0 else if r > w then size-r+w else w-r

def index (size r k : Nat) : Nat := if r+k < size then r+k else r+k-size

def window (buf : Nat → α) (size : Nat) : Nat → Nat → List α
  | _, 0 => []
  | r, n+1 => buf r::window buf size (next size r) n

theorem next_lt (hi : i < size) : next size i < size := by
  unfold next
  split <;> omega

@[simp] theorem distance_self : distance size r r=0 := by simp [distance]

private theorem distance_next_left (hr : r < size) (hw : w < size) (hne : r≠w) :
    distance size r w=distance size (next size r) w + 1 := by
  unfold distance next
  split_ifs <;> omega

private theorem distance_next_right (hr : r < size) (hro : distance size r w + 1 < size) :
    distance size r (next size w)=distance size r w + 1 := by
  unfold distance next at *
  split_ifs at hro ⊢ <;> omega

private theorem index_next (hk : k+1 < size) : index size (next size r) k=index size r (k+1) := by
  unfold index next
  split_ifs <;> omega

private theorem index_distance (hr : r < size) (hw : w < size) :
    index size r (distance size r w)=w := by
  unfold index distance
  split_ifs <;> omega

private theorem index_ne (hj : j<k) (hk : k < size) : index size r j≠index size r k := by
  unfold index
  split_ifs <;> omega

section
variable (buf : Nat → α)
include buf

@[simp] theorem window_length (size r n : Nat) : (window buf size r n).length=n := by
  induction n generalizing r with
  | zero => rfl
  | succ n ih => simp [window,ih]

theorem window_append_one (hr : r < size) (hn : n < size) :
    window buf size r (n+1)=window buf size r n++[buf (index size r n)] := by
  induction n generalizing r with
  | zero =>
    have h : index size r 0=r := by simp [index,hr]
    simp [window,h]
  | succ n ih =>
    rw [window,ih (next_lt hr) (by omega),index_next hn]
    rfl

private theorem window_update (x : α) (hr : r < size) (hm : m < size) (hn : n ≤ m) :
    window (update buf (index size r m) x) size r n=window buf size r n := by
  induction n with
  | zero => rfl
  | succ n ih =>
    rw [window_append_one _ hr (by omega),window_append_one _ hr (by omega),ih (by omega),
      update_of_ne (index_ne (by omega) hm)]

theorem window_distance_next_left (hr : r < size) (hw : w < size) (hne : r≠w) :
    window buf size r (distance size r w) =
      buf r::window buf size (next size r) (distance size (next size r) w) := by
  rw [distance_next_left hr hw hne,window]

theorem window_distance_next_right (x : α) (hr : r < size) (hw : w < size)
    (hro : distance size r w + 1 < size) :
    window (update buf w x) size r (distance size r (next size w)) =
      window buf size r (distance size r w)++[x] := by
  have hpos := index_distance hr hw
  rw [distance_next_right hr hro,window_append_one _ hr (by omega),hpos,update_self]
  have hold := window_update buf x (m := distance size r w) hr (by omega) (Nat.le_refl _)
  rw [hpos] at hold
  rw [hold]

end

end RazionOS.Framework.Circular
