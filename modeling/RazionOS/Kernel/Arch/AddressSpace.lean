import RazionOS.Framework.Sharing
import RazionOS.Kernel.Arch.Effects

/-!
# Who maps which frame

The page tables of all processes as one map from places to frames: a table is the only
mapping of its frame, a private user page may share its frame with others.
-/

namespace RazionOS.Kernel
open Framework Function List

/-- The frame of the table at a path, which lists the indices from the last one to the first. -/
def walk (mem : Nat → Nat → PML) (root : Nat) : List Nat → Option Nat
  | [] => some root
  | i::p => (walk mem root p).bind fun t =>
    if (mem t i).present then some (mem t i).frame else none

def fanout : List Nat → Nat
  | [] => 256
  | _::_ => 512

def TablePath : List Nat → Prop
  | [] => True
  | i::p => TablePath p ∧ p.length<3 ∧ i<fanout p

instance decidableTablePath : (p : List Nat) → Decidable (TablePath p)
  | [] => .isTrue trivial
  | _::p =>
    have := decidableTablePath p
    inferInstanceAs (Decidable (_ ∧ _))

def pathAddress : List Nat → Nat → Nat
  | [k, j, i], l => addressOf i j k l
  | _, _ => 0

def PagePath (p : List Nat) (l : Nat) : Prop := TablePath p ∧ p.length=3 ∧ l<512

instance (p : List Nat) (l : Nat) : Decidable (PagePath p l) := inferInstanceAs (Decidable (_ ∧ _))

/-- What maps a frame: a table, a private user page, or something that keeps it for good. -/
inductive Place where
  | table (root : Nat) (path : List Nat)
  | page (root : Nat) (path : List Nat) (index : Nat)
  | held (frame : Nat)
deriving DecidableEq

def leafMapping (e : PML) : Option (Mapping Nat) :=
  if e.present ∧ e.user then some ⟨e.page.toNat,e.writable,e.cowPending⟩ else none

def view (roots held : List Nat) (s : MMU) : Place → Option (Mapping Nat)
  | .table r p => if r∈roots ∧ TablePath p then (walk s.mem r p).map .sole else none
  | .page r p l =>
    if r∈roots ∧ PagePath p l ∧ ¬ IsShared (pathAddress p l) then
      (walk s.mem r p).bind fun t => leafMapping (s.mem t l)
    else none
  | .held f => if f∈held ∧ f < s.nframes then some (.sole f) else none

/-- The frames that address spaces refer to and do not own, by level, and the shared mappings. -/
structure Held where
  pdps : List Nat
  pds : List Nat
  pts : List Nat
  window : List Nat

def Held.kernel (h : Held) : List Nat := h.pdps++h.pds++h.pts
def Held.frames (h : Held) : List Nat := h.kernel++h.window

/-- No large pages in user space, and entries that refer to frames of others do so in the open. -/
structure Layout (roots : List Nat) (h : Held) (s : MMU) : Prop where
  directory : ∀ r p t i, r∈roots → TablePath (i::p) → walk s.mem r p=some t →
    (s.mem t i).present=true → (s.mem t i).size=false ∧ (s.mem t i).page.toNat<2^27
  window : ∀ r p t l, r∈roots → PagePath p l → IsShared (pathAddress p l) →
    walk s.mem r p=some t → (s.mem t l).present=true → (s.mem t l).user=true →
      (s.mem t l).page.toNat∈h.window
  plain : ∀ r p t l, r∈roots → PagePath p l → walk s.mem r p=some t →
    (s.mem t l).present=true → (s.mem t l).user=false ∨ IsShared (pathAddress p l) →
      (s.mem t l).cowPending=false
  apart : ∀ f∈h.window, f∉h.kernel
  kernel : ∀ r∈roots, ∀ i, 256 ≤ i → i<512 → (s.mem r i).present=true → (s.mem r i).frame∈h.pdps
  pdps : ∀ t∈h.pdps, ∀ i<512, (s.mem t i).present=true → (s.mem t i).size=false →
    (s.mem t i).frame∈h.pds
  pds : ∀ t∈h.pds, ∀ i<512, (s.mem t i).present=true → (s.mem t i).size=false →
    (s.mem t i).frame∈h.pts
  pts : ∀ t∈h.pts, ∀ i<512, (s.mem t i).present=true → (s.mem t i).cowPending=false

/-- Every frame is accounted for. -/
structure AddressSpaces (roots : List Nat) (h : Held) (s : MMU) : Prop
    extends Layout roots h s where
  sharing : Sharing (view roots h.frames s) s.refs s.Used

theorem fanout_le : fanout p≤512 := by
  cases p <;> simp [fanout]

theorem fanout_of_ne_nil (h : p≠[]) : fanout p=512 := by
  cases p with
  | nil => exact absurd rfl h
  | cons => rfl

theorem TablePath.length_le (h : TablePath p) : p.length≤3 := by
  cases p with
  | nil => simp
  | cons i p =>
    have := h.2.1
    simp only [length_cons]
    omega

variable {q held : List Nat}

theorem TablePath.of_suffix (h : TablePath q) (hs : p <:+ q) : TablePath p := by
  induction q with
  | nil =>
    cases suffix_nil.1 hs
    trivial
  | cons i q ih =>
    rcases suffix_cons_iff.1 hs with rfl | hs
    · exact h
    · exact ih h.1 hs

theorem PagePath.not_suffix (h : PagePath p l) (hq : TablePath q) : ¬ (l::p) <:+ q := by
  intro hs
  have h1 := hs.length_le
  have h2 := hq.length_le
  have h3 := h.2.1
  simp only [length_cons] at h1
  omega

theorem PagePath.ne_nil (hp : PagePath p l) : p≠[] := by
  rintro rfl
  cases hp.2.1

theorem walk_cons (hp : walk mem r p=some t) :
    walk mem r (i::p)=if (mem t i).present then some (mem t i).frame else none := by
  simp [walk,hp]

theorem walk_cons_eq_some (h : walk mem r (i::p)=some u) :
    ∃ t, walk mem r p=some t ∧ (mem t i).present=true ∧ u=(mem t i).frame := by
  obtain ⟨t,hp,h⟩ := Option.bind_eq_some_iff.1 h
  split at h
  · rename_i hpr
    cases h
    exact ⟨t,hp,hpr,rfl⟩
  · cases h

theorem walk_eq_none_of_suffix (hq : walk mem r p=none) (hs : p <:+ q) : walk mem r q=none := by
  induction q with
  | nil =>
    cases suffix_nil.1 hs
    exact hq
  | cons i q ih =>
    rcases suffix_cons_iff.1 hs with rfl | hs
    · exact hq
    · simp [walk,ih hs]

private theorem walk_congr (t0 : Nat)
    (hmem : ∀ p t i, TablePath p → walk mem r p=some t → t≠t0 ∨ i≠i0 → mem' t i=mem t i)
    (hs : ∀ p, TablePath p → walk mem r p=some t0 → r=r0 ∧ p=p0) (hp : TablePath p)
    (ho : ¬ (r=r0 ∧ (i0::p0) <:+ p)) : walk mem' r p=walk mem r p := by
  induction p with
  | nil => rfl
  | cons i p ih =>
    have ih : walk mem' r p=walk mem r p := by
      apply ih hp.1
      intro hin
      exact ho ⟨hin.1,hin.2.trans (suffix_cons i p)⟩
    simp only [walk,ih]
    cases hw : walk mem r p with
    | none => rfl
    | some t =>
      have hne : t≠t0 ∨ i≠i0 := by
        by_contra hc
        have hc : t=t0 ∧ i=i0 := by omega
        obtain ⟨rfl,rfl⟩ := hc
        obtain ⟨hr,rfl⟩ := hs p hp.1 hw
        exact ho ⟨hr,suffix_rfl⟩
      simp [hmem p t i hp.1 hw hne]

theorem view_table (hr : r∈roots) (hp : TablePath p) (hw : walk s.mem r p=some t) :
    view roots held s (.table r p)=some (.sole t) := by
  simp [view,hr,hp,hw]

theorem view_page (hr : r∈roots) (hp : PagePath p l) (hs : ¬ IsShared (pathAddress p l))
    (hw : walk s.mem r p=some t) : view roots held s (.page r p l)=leafMapping (s.mem t l) := by
  simp [view,hr,hp,hs,hw]

theorem view_held (roots : List Nat) (hf : f∈held) (hlt : f < s.nframes) :
    view roots held s (.held f)=some (.sole f) := by
  simp [view,hf,hlt]

theorem walk_of_view (hv : view roots held s (.table r p)=some (.sole t)) :
    walk s.mem r p=some t := by
  simp only [view] at hv
  split at hv
  · obtain ⟨t',hw,ht⟩ := Option.map_eq_some_iff.1 hv
    cases ht
    exact hw
  · cases hv

structure Loose (roots : List Nat) (h : Held) (s : MMU) (f : Nat) : Prop where
  table : ∀ r p, r∈roots → TablePath p → walk s.mem r p≠some f
  kernel : f∉h.kernel

namespace AddressSpaces

variable (inv : AddressSpaces roots h s)
include inv

section
variable (hr : r∈roots) (hp : TablePath p) (hw : walk s.mem r p=some t)
include hr hp hw

theorem table_used : s.Used t := inv.sharing.marked _ _ (view_table hr hp hw)

theorem table_place_eq (hi : view roots h.frames s i=some m) (hf : m.frame=t) : i = .table r p := by
  have ht : view roots h.frames s (.table r p)=some (.sole t) := view_table hr hp hw
  have hre := inv.sharing.writable _ _ ht rfl
  exact inv.sharing.place_eq hi ht hf (hf ▸ hre)

theorem table_inj (hr' : r' ∈ roots) (hp' : TablePath p') (hw' : walk s.mem r' p' = some t) :
    r' = r ∧ p' = p := by
  have := inv.table_place_eq hr hp hw (view_table hr' hp' hw') rfl
  simpa using this

theorem table_not_held : t∉h.frames := by
  intro hf
  have hlt := (inv.table_used hr hp hw).1
  have := inv.table_place_eq hr hp hw (view_held roots hf hlt) rfl
  cases this

end

theorem loose_of_unused (hlt : f < s.nframes) (hf : ¬ s.Used f) : Loose roots h s f := by
  constructor
  · intro r p hr hp hw
    exact hf (inv.table_used hr hp hw)
  · intro hk
    have hh : f∈h.frames := mem_append_left _ hk
    exact hf (inv.sharing.marked _ _ (view_held roots hh hlt))

theorem loose_of_page (hm : view roots h.frames s (.page r p l)=some m) :
    Loose roots h s m.frame := by
  constructor
  · intro r' p' hr hp hw
    cases inv.table_place_eq hr hp hw hm rfl
  intro hk
  have hh : m.frame∈h.frames := mem_append_left _ hk
  have hpl := view_held roots hh (inv.sharing.marked _ _ hm).1
  have hre := inv.sharing.writable _ _ hpl rfl
  cases inv.sharing.place_eq hm hpl rfl hre

theorem loose_of_window (hf : f∈h.window) : Loose roots h s f := by
  constructor
  · intro r p hr hp hw
    exact inv.table_not_held hr hp hw (mem_append_right _ hf)
  · exact inv.apart f hf

theorem frame_eq_page (hr : r∈roots) (hp : TablePath (i::p)) (hw : walk s.mem r p=some t)
    (hi : (s.mem t i).present=true) : (s.mem t i).frame=(s.mem t i).page.toNat :=
  Nat.mod_eq_of_lt (inv.directory r p t i hr hp hw hi).2
end AddressSpaces

/-- `s'` has the memory of `s` but for the entry `i0` of the table at `p0` and for frames that
are no tables. -/
structure Edit (roots : List Nat) (h : Held) (s s' : MMU) (r0 : Nat) (p0 : List Nat) (t0 i0 : Nat)
    (gs : List Nat) : Prop where
  root : r0∈roots
  path : TablePath p0
  table : walk s.mem r0 p0=some t0
  user : i0<256 ∨ p0≠[] ∨ 512 ≤ i0
  loose : ∀ g∈gs, Loose roots h s g
  mem : ∀ t i, t∉gs → t≠t0 ∨ i≠i0 → s'.mem t i=s.mem t i
  nframes : s'.nframes=s.nframes

namespace Edit

variable (inv : AddressSpaces roots h s) (ed : Edit roots h s s' r0 p0 t0 i0 gs)
include ed

theorem mem_table (hr : r∈roots) (hp : TablePath p) (hw : walk s.mem r p=some t)
    (hne : t≠t0 ∨ i≠i0) : s'.mem t i=s.mem t i := by
  apply ed.mem t i ?_ hne
  intro hg
  exact (ed.loose t hg).table r p hr hp hw

include inv

theorem walk_eq (hr : r∈roots) (hp : TablePath p) (ho : ¬ (r=r0 ∧ (i0::p0) <:+ p)) :
    walk s'.mem r p=walk s.mem r p := by
  apply walk_congr t0 _ _ hp ho
  · intro p t i hp hw hne
    exact ed.mem_table hr hp hw hne
  · intro p hp hw
    exact inv.table_inj ed.root ed.path ed.table hr hp hw

private theorem mem_kernel (ht : t∈h.kernel) : s'.mem t i=s.mem t i := by
  apply ed.mem
  · intro hg
    exact (ed.loose t hg).kernel ht
  · left
    rintro rfl
    exact inv.table_not_held ed.root ed.path ed.table (mem_append_left _ ht)

private theorem mem_root (hr : r∈roots) (hi : 256 ≤ i) (hi' : i<512) : s'.mem r i=s.mem r i := by
  have hw : walk s.mem r []=some r := rfl
  have hpa : TablePath [] := trivial
  apply ed.mem_table hr hpa hw
  by_contra hc
  have hc : r=t0 ∧ i=i0 := by omega
  obtain ⟨rfl,rfl⟩ := hc
  have := inv.table_inj ed.root ed.path ed.table hr hpa hw
  have hp := ed.user
  rw [← this.2] at hp
  simp at hp
  omega

theorem kernel_fields : (∀ r∈roots, ∀ i, 256 ≤ i → i<512 → (s'.mem r i).present=true →
      (s'.mem r i).frame∈h.pdps) ∧
    (∀ t∈h.pdps, ∀ i<512, (s'.mem t i).present=true → (s'.mem t i).size=false →
      (s'.mem t i).frame∈h.pds) ∧
    (∀ t∈h.pds, ∀ i<512, (s'.mem t i).present=true → (s'.mem t i).size=false →
      (s'.mem t i).frame∈h.pts) ∧
    ∀ t∈h.pts, ∀ i<512, (s'.mem t i).present=true → (s'.mem t i).cowPending=false := by
  refine ⟨?_,?_,?_,?_⟩
  · intro r hr i hi hi'
    rw [ed.mem_root inv hr hi hi']
    exact inv.kernel r hr i hi hi'
  · intro t ht i
    rw [ed.mem_kernel inv (by simp [Held.kernel, ht])]
    exact inv.pdps t ht i
  · intro t ht i
    rw [ed.mem_kernel inv (by simp [Held.kernel, ht])]
    exact inv.pds t ht i
  · intro t ht i
    rw [ed.mem_kernel inv (by simp [Held.kernel, ht])]
    exact inv.pts t ht i
end Edit
section Edits
variable (inv : AddressSpaces roots h s) (ed : Edit roots h s s' r0 p0 t0 i0 gs)
include inv ed

/-- The mapping of a page's entry; the shared ones are not counted. -/
def pageMapping (p : List Nat) (l : Nat) (e : PML) : Option (Mapping Nat) :=
  if IsShared (pathAddress p l) then none else leafMapping e

theorem Edit.walk_of_page (hp₀ : PagePath p0 i0) (r : Nat) (p : List Nat) (hr : r∈roots)
    (hp : TablePath p) : walk s'.mem r p=walk s.mem r p :=
  ed.walk_eq inv hr hp fun hin => hp₀.not_suffix hp hin.2

theorem Edit.view_of_page (hp₀ : PagePath p0 i0) :
    view roots h.frames s' = update (view roots h.frames s) (.page r0 p0 i0)
      (pageMapping p0 i0 (s'.mem t0 i0)) := by
  have hwa := ed.walk_of_page inv hp₀
  funext place
  cases place with
  | table r p =>
    simp only [view,ne_eq,reduceCtorEq,not_false_eq_true,update_of_ne]
    split
    · rename_i hrp
      rw [hwa r p hrp.1 hrp.2]
    · rfl
  | held f =>
    simp [view,ed.nframes]
  | page r p l =>
    by_cases hpl : (Place.page r p l) = .page r0 p0 i0
    · cases hpl
      simp only [view,pageMapping,ed.root,hp₀]
      rw [hwa _ _ ed.root hp₀.1,ed.table]
      by_cases hs : IsShared (pathAddress p0 i0) <;> simp
    rw [update_of_ne hpl]
    simp only [view]
    split
    · rename_i hrp
      rw [hwa r p hrp.1 hrp.2.1.1]
      cases hw : walk s.mem r p with
      | none => rfl
      | some t =>
        have hne : t≠t0 ∨ l≠i0 := by
          by_contra hc
          have hc : t=t0 ∧ l=i0 := by omega
          obtain ⟨rfl,rfl⟩ := hc
          obtain ⟨rfl,rfl⟩ := inv.table_inj ed.root ed.path ed.table hrp.1 hrp.2.1.1 hw
          exact hpl rfl
        simp [ed.mem_table hrp.1 hrp.2.1.1 hw hne]
    · rfl

theorem AddressSpaces.edit_page (hp₀ : PagePath p0 i0) (hpl : (s'.mem t0 i0).present=true →
      (s'.mem t0 i0).user=false ∨ IsShared (pathAddress p0 i0) → (s'.mem t0 i0).cowPending=false)
    (hwi : IsShared (pathAddress p0 i0) → (s'.mem t0 i0).present=true →
      (s'.mem t0 i0).user=true → (s'.mem t0 i0).page.toNat∈h.window)
    (hsh : Sharing (update (view roots h.frames s) (.page r0 p0 i0)
      (pageMapping p0 i0 (s'.mem t0 i0))) s'.refs s'.Used) : AddressSpaces roots h s' := by
  have hwa := ed.walk_of_page inv hp₀
  have he : ∀ r p t l, r∈roots → PagePath p l → walk s.mem r p=some t →
      t=t0 ∧ l=i0 ∧ p=p0 ∨ s'.mem t l=s.mem t l := by
    intro r p t l hr hp hw
    by_cases hsl : t=t0 ∧ l=i0
    · obtain ⟨rfl,rfl⟩ := hsl
      exact .inl ⟨rfl,rfl,(inv.table_inj ed.root ed.path ed.table hr hp.1 hw).2⟩
    · exact .inr (ed.mem_table hr hp.1 hw (by omega))
  obtain ⟨hk,hpd,hpds,hpt⟩ := ed.kernel_fields inv
  refine ⟨⟨?_,?_,?_,inv.apart,hk,hpd,hpds,hpt⟩,?_⟩
  · intro r p t i hr hp hw
    rw [hwa r p hr hp.1] at hw
    have hne : t≠t0 := by
      rintro rfl
      have hlen := hp.2.1
      rw [(inv.table_inj ed.root ed.path ed.table hr hp.1 hw).2,hp₀.2.1] at hlen
      omega
    rw [ed.mem_table hr hp.1 hw (.inl hne)]
    exact inv.directory r p t i hr hp hw
  · intro r p t l hr hp hs hw
    rw [hwa r p hr hp.1] at hw
    rcases he r p t l hr hp hw with ⟨rfl,rfl,rfl⟩ | hsa
    · exact hwi hs
    · rw [hsa]
      exact inv.window r p t l hr hp hs hw
  · intro r p t l hr hp hw
    rw [hwa r p hr hp.1] at hw
    rcases he r p t l hr hp hw with ⟨rfl,rfl,rfl⟩ | hsa
    · exact hpl
    · rw [hsa]
      exact inv.plain r p t l hr hp hw
  · rw [ed.view_of_page inv hp₀]
    exact hsh

omit ed in
theorem AddressSpaces.set_page (hr : r0∈roots) (hp₀ : PagePath p0 i0)
    (hs : ¬ IsShared (pathAddress p0 i0)) (hw : walk s.mem r0 p0=some t0)
    (hl : ∀ g∈gs, Loose roots h s g)
    (hmem : ∀ t i, t∉gs → t≠t0 ∨ i≠i0 → s'.mem t i=s.mem t i) (hn : s'.nframes=s.nframes)
    (hp : (s'.mem t0 i0).present=true → (s'.mem t0 i0).user=false → (s'.mem t0 i0).cowPending=false)
    (hsh : Sharing (update (view roots h.frames s) (.page r0 p0 i0)
      (leafMapping (s'.mem t0 i0))) s'.refs s'.Used) :
    AddressSpaces roots h s' ∧ view roots h.frames s' =
      update (view roots h.frames s) (.page r0 p0 i0) (leafMapping (s'.mem t0 i0)) := by
  have ed : Edit roots h s s' r0 p0 t0 i0 gs := ⟨hr,hp₀.1,hw,.inr (.inl hp₀.ne_nil),hl,hmem,hn⟩
  have hm : pageMapping p0 i0 (s'.mem t0 i0)=leafMapping (s'.mem t0 i0) := if_neg hs
  constructor
  · apply inv.edit_page ed hp₀
    · intro hpr hor
      exact hp hpr (hor.resolve_right hs)
    · exact fun hsha => absurd hsha hs
    · rw [hm]
      exact hsh
  · rw [ed.view_of_page inv hp₀,hm]

omit inv ed in
theorem exists_cons_suffix (hs : q <:+ p) (hne : p≠q) : ∃ j, (j::q) <:+ p := by
  induction p with
  | nil =>
    cases suffix_nil.1 hs
    exact absurd rfl hne
  | cons i p ih =>
    rcases suffix_cons_iff.1 hs with rfl | hs
    · exact absurd rfl hne
    by_cases hpq : p=q
    · exact ⟨i,hpq ▸ suffix_rfl⟩
    · obtain ⟨j,hj⟩ := ih hs hpq
      exact ⟨j,hj.trans (suffix_cons i p)⟩

structure Stub (mem : Nat → Nat → PML) (root : Nat) (q : List Nat) (o : Option Nat) : Prop where
  walk : walk mem root q=o
  empty : ∀ t, o=some t → ∀ i<512, (mem t i).present=false

omit inv ed in
theorem Stub.walk_eq (st : Stub mem root q o) (hp : TablePath p) (hs : q <:+ p) (hne : p≠q) :
    Kernel.walk mem root p=none := by
  obtain ⟨j,hj⟩ := exists_cons_suffix hs hne
  have hjq := hp.of_suffix hj
  apply walk_eq_none_of_suffix _ hj
  cases o with
  | none => simp [Kernel.walk,st.walk]
  | some t =>
    have hj512 : j<512 := Nat.lt_of_lt_of_le hjq.2.2 fanout_le
    rw [walk_cons st.walk]
    simp [st.empty t rfl j hj512]

section
variable (hq : TablePath (i0::p0)) (st : Stub s.mem r0 (i0::p0) o)
  (st' : Stub s'.mem r0 (i0::p0) o')
include hq st st'

theorem Edit.view_of_stub :
    view roots h.frames s' = update (view roots h.frames s) (.table r0 (i0::p0))
      (o'.map .sole) := by
  funext place
  cases place with
  | held f => simp [view,ed.nframes]
  | table r p =>
    by_cases hpl : Place.table r p = .table r0 (i0::p0)
    · cases hpl
      simp [view,ed.root,hq,st'.walk]
    rw [update_of_ne hpl]
    simp only [view]
    split
    · rename_i hrp
      by_cases hin : r=r0 ∧ (i0::p0) <:+ p
      · obtain ⟨rfl,hs⟩ := hin
        have hne : p≠i0::p0 := fun hp => hpl (by rw [hp])
        rw [st.walk_eq hrp.2 hs hne,st'.walk_eq hrp.2 hs hne]
      · rw [ed.walk_eq inv hrp.1 hrp.2 hin]
    · rfl
  | page r p l =>
    simp only [view,ne_eq,reduceCtorEq,not_false_eq_true,update_of_ne]
    split
    · rename_i hrp
      by_cases hin : r=r0 ∧ (i0::p0) <:+ p
      · obtain ⟨rfl,hs⟩ := hin
        have hl : ∀ (m : MMU) (o : Option Nat), Stub m.mem r (i0::p0) o →
            ((walk m.mem r p).bind fun t => leafMapping (m.mem t l))=none := by
          intro m o st
          by_cases hp : p=i0::p0
          · rw [hp,st.walk]
            cases o with
            | none => rfl
            | some t => simp [leafMapping,st.empty t rfl l hrp.2.1.2.2]
          · simp [st.walk_eq hrp.2.1.1 hs hp]
        rw [hl s o st,hl s' o' st']
      · rw [ed.walk_eq inv hrp.1 hrp.2.1.1 hin]
        cases hw : walk s.mem r p with
        | none => rfl
        | some t =>
          have hne : t≠t0 := by
            rintro rfl
            have hpp := (inv.table_inj ed.root ed.path ed.table hrp.1 hrp.2.1.1 hw).2
            have hlen := hq.2.1
            rw [← hpp,hrp.2.1.2.1] at hlen
            omega
          simp [ed.mem_table hrp.1 hrp.2.1.1 hw (.inl hne)]
    · rfl

theorem AddressSpaces.edit_table
    (hd : (s'.mem t0 i0).present=true → (s'.mem t0 i0).size=false ∧ (s'.mem t0 i0).page.toNat<2^27)
    (hsh : Sharing (update (view roots h.frames s) (.table r0 (i0::p0))
      (o'.map .sole)) s'.refs s'.Used) : AddressSpaces roots h s' := by
  -- a table of `s'` is one of `s`, or the new one
  have hc : ∀ r p t, r∈roots → TablePath p → walk s'.mem r p=some t →
      walk s.mem r p=some t ∨ ∀ i<512, (s'.mem t i).present=false := by
    intro r p t hr hp hw
    by_cases hin : r=r0 ∧ (i0::p0) <:+ p
    · obtain ⟨rfl,hs⟩ := hin
      by_cases hpq : p=i0::p0
      · right
        rw [hpq,st'.walk] at hw
        exact st'.empty t hw
      · rw [st'.walk_eq hp hs hpq] at hw
        cases hw
    · rw [ed.walk_eq inv hr hp hin] at hw
      exact .inl hw
  have hpa : ∀ r p t l, r∈roots → PagePath p l → walk s.mem r p=some t →
      s'.mem t l=s.mem t l := by
    intro r p t l hr hp hw
    have hne : t≠t0 := by
      rintro rfl
      have hpp := (inv.table_inj ed.root ed.path ed.table hr hp.1 hw).2
      have hlen := hq.2.1
      rw [← hpp,hp.2.1] at hlen
      omega
    exact ed.mem_table hr hp.1 hw (.inl hne)
  obtain ⟨hk,hpd,hpds,hpt⟩ := ed.kernel_fields inv
  refine ⟨⟨?_,?_,?_,inv.apart,hk,hpd,hpds,hpt⟩,?_⟩
  · intro r p t i hr hp hw hpr
    rcases hc r p t hr hp.1 hw with hw | he
    · by_cases hsl : t=t0 ∧ i=i0
      · obtain ⟨rfl,rfl⟩ := hsl
        exact hd hpr
      · have hsa := ed.mem_table hr hp.1 hw (i := i) (by omega)
        rw [hsa] at hpr ⊢
        exact inv.directory r p t i hr hp hw hpr
    · have hlt : i<512 := Nat.lt_of_lt_of_le hp.2.2 fanout_le
      rw [he i hlt] at hpr
      cases hpr
  · intro r p t l hr hp hs hw hpr
    rcases hc r p t hr hp.1 hw with hw | he
    · rw [hpa r p t l hr hp hw] at hpr ⊢
      exact inv.window r p t l hr hp hs hw hpr
    · rw [he l hp.2.2] at hpr
      cases hpr
  · intro r p t l hr hp hw hpr
    rcases hc r p t hr hp.1 hw with hw | he
    · rw [hpa r p t l hr hp hw] at hpr ⊢
      exact inv.plain r p t l hr hp hw hpr
    · rw [he l hp.2.2] at hpr
      cases hpr
  · rw [ed.view_of_stub inv hq st st']
    exact hsh

end

end Edits

private theorem walk_congr_of_loose (hmem : ∀ p t, TablePath p → walk mem r p=some t → mem' t=mem t)
    (hp : TablePath p) : walk mem' r p=walk mem r p := by
  induction p with
  | nil => rfl
  | cons i p ih =>
    simp only [walk,ih hp.1]
    cases hw : walk mem r p with
    | none => rfl
    | some t => simp [hmem p t hp.1 hw]

namespace AddressSpaces

variable {s s' : MMU} (inv : AddressSpaces roots h s)
include inv

theorem edit_data {gs : List Nat} (hgs : ∀ g∈gs, Loose roots h s g)
    (hmem : ∀ t, t∉gs → s'.mem t=s.mem t) (hn : s'.nframes=s.nframes)
    (hre : s'.refs=s.refs) (hu : ∀ f, s.Used f → s'.Used f) :
    AddressSpaces roots h s' ∧ view roots h.frames s' = view roots h.frames s := by
  have hta : ∀ r p t, r∈roots → TablePath p → walk s.mem r p=some t → s'.mem t=s.mem t := by
    intro r p t hr hp hw
    exact hmem t fun hg => (hgs t hg).table r p hr hp hw
  have hwa : ∀ r p, r∈roots → TablePath p → walk s'.mem r p=walk s.mem r p := by
    intro r p hr hp
    exact walk_congr_of_loose (fun p t hp hw => hta r p t hr hp hw) hp
  have hk : ∀ t∈h.kernel, s'.mem t=s.mem t :=
    fun t ht => hmem t fun hg => (hgs t hg).kernel ht
  have hv : view roots h.frames s' = view roots h.frames s := by
    funext place
    cases place with
    | held f => simp [view,hn]
    | table r p =>
      simp only [view]
      split
      · rename_i hrp
        rw [hwa r p hrp.1 hrp.2]
      · rfl
    | page r p l =>
      simp only [view]
      split
      · rename_i hrp
        rw [hwa r p hrp.1 hrp.2.1.1]
        cases hw : walk s.mem r p with
        | none => rfl
        | some t => simp [hta r p t hrp.1 hrp.2.1.1 hw]
      · rfl
  refine ⟨⟨⟨?_,?_,?_,inv.apart,?_,?_,?_,?_⟩,?_⟩,hv⟩
  · intro r p t i hr hp hw
    rw [hwa r p hr hp.1] at hw
    rw [hta r p t hr hp.1 hw]
    exact inv.directory r p t i hr hp hw
  · intro r p t l hr hp hs hw
    rw [hwa r p hr hp.1] at hw
    rw [hta r p t hr hp.1 hw]
    exact inv.window r p t l hr hp hs hw
  · intro r p t l hr hp hw
    rw [hwa r p hr hp.1] at hw
    rw [hta r p t hr hp.1 hw]
    exact inv.plain r p t l hr hp hw
  · intro r hr
    rw [hta r [] r hr trivial rfl]
    exact inv.kernel r hr
  · intro t ht
    rw [hk t (by simp [Held.kernel, ht])]
    exact inv.pdps t ht
  · intro t ht
    rw [hk t (by simp [Held.kernel, ht])]
    exact inv.pds t ht
  · intro t ht
    rw [hk t (by simp [Held.kernel, ht])]
    exact inv.pts t ht
  · rw [hv,hre]
    exact inv.sharing.used_congr fun i m hi => hu _ (inv.sharing.marked i m hi)

omit inv in
private theorem walk_new_root (ha : ∀ i<256, (s'.mem g i).present=false) (hp : TablePath p)
    (hne : p≠[]) : walk s'.mem g p=none := by
  induction p with
  | nil => exact absurd rfl hne
  | cons i p ih =>
    cases p with
    | nil => simp [walk,ha i hp.2.2]
    | cons j p => rw [walk,ih hp.1 (by simp),Option.bind_none]

theorem add_root {g r : Nat} (hlt : g < s.nframes) (hg : ¬ s.Used g) (hr : r∈roots)
    (hmem : ∀ t, t≠g → s'.mem t=s.mem t) (ha : ∀ i<256, (s'.mem g i).present=false)
    (hk : ∀ i, 256 ≤ i → i<512 → s'.mem g i=s.mem r i)
    (hnf : s'.nframes=s.nframes) (hre : s'.refs=s.refs)
    (hu : ∀ f, s'.Used f ↔ s.Used f ∨ f=g) : AddressSpaces (g::roots) h s' ∧
      view (g::roots) h.frames s' =
        update (view roots h.frames s) (.table g []) (some (.sole g)) := by
  have hl : ∀ f∈[g], Loose roots h s f := by
    simpa using inv.loose_of_unused hlt hg
  have hmem' : ∀ t, t∉[g] → s'.mem t=s.mem t := by
    simpa using hmem
  obtain ⟨inv',hv'⟩ := inv.edit_data hl hmem' hnf hre (fun f hf => (hu f).2 (.inl hf))
  have hn : g∉roots := fun hgr => hg (inv.table_used (p := []) hgr trivial rfl)
  have hwa : ∀ p, TablePath p → p≠[] → walk s'.mem g p=none :=
    fun p hp hne => walk_new_root ha hp hne
  have hv : view (g::roots) h.frames s' =
      update (view roots h.frames s) (.table g []) (some (.sole g)) := by
    rw [← hv']
    funext place
    cases place with
    | held f => simp [view]
    | table r p =>
      by_cases hpl : Place.table r p = .table g []
      · cases hpl
        simp [view,walk,TablePath]
      by_cases hrg : r=g
      · subst hrg
        have hp : p≠[] := fun hp => hpl (by rw [hp])
        by_cases htp : TablePath p <;> simp [view,htp,hwa,hp]
      · simp [view,hrg]
    | page r p l =>
      by_cases hrg : r=g
      · subst hrg
        by_cases hpp : PagePath p l
        · have hp : p≠[] := by
            rintro rfl
            cases hpp.2.1
          simp [view,hwa p hpp.1 hp]
        · simp [view,hpp]
      · simp [view,hrg]
  refine ⟨⟨⟨?_,?_,?_,inv.apart,?_,inv'.pdps,inv'.pds,inv'.pts⟩,?_⟩,hv⟩
  · intro r' p t i hr' hp hw hpr
    rcases mem_cons.1 hr' with rfl | hr'
    · by_cases hp0 : p=[]
      · subst hp0
        cases hw
        rw [ha i hp.2.2] at hpr
        cases hpr
      · rw [hwa p hp.1 hp0] at hw
        cases hw
    · exact inv'.directory r' p t i hr' hp hw hpr
  · intro r' p t l hr' hp hs hw
    rcases mem_cons.1 hr' with rfl | hr'
    · have hp0 : p≠[] := by
        rintro rfl
        cases hp.2.1
      rw [hwa p hp.1 hp0] at hw
      cases hw
    · exact inv'.window r' p t l hr' hp hs hw
  · intro r' p t l hr' hp hw
    rcases mem_cons.1 hr' with rfl | hr'
    · have hp0 : p≠[] := by
        rintro rfl
        cases hp.2.1
      rw [hwa p hp.1 hp0] at hw
      cases hw
    · exact inv'.plain r' p t l hr' hp hw
  · intro r' hr' i hi hi'
    rcases mem_cons.1 hr' with rfl | hr'
    · rw [hk i hi hi']
      exact inv.kernel r hr i hi hi'
    · exact inv'.kernel r' hr' i hi hi'
  · rw [hv,hre]
    exact inv.sharing.map_fresh (by simp [view,hn]) hg true hu

theorem hold_fresh (hlt : g < s.nframes) (hg : ¬ s.Used g) (hmem : s'.mem=s.mem)
    (hnf : s'.nframes=s.nframes) (hre : s'.refs=s.refs) (hu : ∀ f, s'.Used f ↔ s.Used f ∨ f=g) :
    AddressSpaces roots { h with window := g::h.window } s' := by
  have hl := inv.loose_of_unused hlt hg
  have hn : view roots h.frames s (.held g)=none := by
    cases hv : view roots h.frames s (.held g) with
    | none => rfl
    | some m =>
      have hm : m = .sole g := by
        simp only [view] at hv
        split at hv
        · exact (Option.some.inj hv).symm
        · cases hv
      subst hm
      exact absurd (inv.sharing.marked _ _ hv) hg
  have hv : view roots { h with window := g::h.window }.frames s' =
      update (view roots h.frames s) (.held g) (some (.sole g)) := by
    funext place
    cases place with
    | table r p => simp [view,hmem]
    | page r p l => simp [view,hmem]
    | held f =>
      by_cases hf : f=g
      · subst hf
        simp [view,Held.frames,hnf,hlt]
      · simp [view,Held.frames,Held.kernel,hnf,hf]
  refine ⟨⟨?_,?_,?_,?_,?_,?_,?_,?_⟩,?_⟩
  · rw [hmem]
    exact inv.directory
  · intro r p t l hr hp hs
    rw [hmem]
    intro hw hpr hus
    exact mem_cons_of_mem _ (inv.window r p t l hr hp hs hw hpr hus)
  · rw [hmem]
    exact inv.plain
  · intro f hf
    rcases mem_cons.1 hf with rfl | hf
    · exact hl.kernel
    · exact inv.apart f hf
  · rw [hmem]
    exact inv.kernel
  · rw [hmem]
    exact inv.pdps
  · rw [hmem]
    exact inv.pds
  · rw [hmem]
    exact inv.pts
  · rw [hv,hre]
    exact inv.sharing.map_fresh hn hg true hu

theorem remove_root (hmem : s'.mem=s.mem)
    (hs : Sharing (view (roots.filter (· ≠ r)) h.frames s') s'.refs s'.Used) :
    AddressSpaces (roots.filter (· ≠ r)) h s' := by
  have hsub : ∀ r', r' ∈ roots.filter (· ≠ r) → r' ∈ roots :=
    fun r' hr' => (mem_filter.1 hr').1
  refine ⟨⟨?_,?_,?_,inv.apart,?_,?_,?_,?_⟩,hs⟩
  · intro r' p t i hr'
    rw [hmem]
    exact inv.directory r' p t i (hsub r' hr')
  · intro r' p t l hr'
    rw [hmem]
    exact inv.window r' p t l (hsub r' hr')
  · intro r' p t l hr'
    rw [hmem]
    exact inv.plain r' p t l (hsub r' hr')
  · intro r' hr'
    rw [hmem]
    exact inv.kernel r' (hsub r' hr')
  · rw [hmem]
    exact inv.pdps
  · rw [hmem]
    exact inv.pds
  · rw [hmem]
    exact inv.pts
end AddressSpaces
end RazionOS.Kernel
