import Mathlib.Data.List.Nodup
import RazionOS.Framework.Forest
import RazionOS.Kernel.Vfs.Tmpfs.Directory

/-! # The directory tree of a tmpfs -/

namespace RazionOS.Kernel
open Framework Relation List

def Tmpfs.files (s : Tmpfs) (d : Nat) : List Nat := (s.nodes d).elim [] (·.files)
def Tmpfs.kind (s : Tmpfs) (i : Nat) : Option NodeType := (s.nodes i).map (·.type)
def Tmpfs.parent (s : Tmpfs) (i : Nat) : Option Nat := (s.nodes i).bind (·.parent)
def Tmpfs.Contains (s : Tmpfs) (d c : Nat) : Prop := c∈s.files d ∧ s.kind c=some .dir

/-- The directories form a tree, and each `parent` field says where its directory is listed. -/
structure IsTree (s : Tmpfs) : Prop where
  reachable : ∀ d c, s.Contains d c → ReflTransGen s.Contains Tmpfs.root c
  acyclic : ∀ d, ¬ TransGen s.Contains d d
  parent : ∀ d c, s.Contains d c → s.parent c=some d

/-- Every node is listed once, a directory in the one its `parent` field names, which is older. -/
structure TreeInv (s : Tmpfs) : Prop where
  root : s.kind Tmpfs.root=some .dir ∧ ∀ d, Tmpfs.root∉s.files d
  live : ∀ d, ∀ c∈s.files d, (s.kind c).isSome
  owner : ∀ d, ∀ c∈s.files d, s.kind d=some .dir
  once : ∀ d d' c, c∈s.files d → c∈s.files d' → d=d'
  nodup : ∀ d, (s.files d).Nodup
  parent : ∀ d c, s.Contains d c → s.parent c=some d
  listed : ∀ c, s.kind c=some .dir → c≠Tmpfs.root → ∃ d, c∈s.files d
  older : ∀ c p, s.parent c=some p → p < c
  fresh : ∀ i, s.next ≤ i → s.nodes i=none

/-- Only directories have entries, and no node is an entry twice. -/
structure Listing (s : Tmpfs) : Prop where
  live : ∀ d, ∀ c∈s.files d, (s.kind c).isSome
  owner : ∀ d, ∀ c∈s.files d, s.kind d=some .dir
  once : ∀ d d' c, c∈s.files d → c∈s.files d' → d=d'
  nodup : ∀ d, (s.files d).Nodup
  fresh : ∀ i, s.next ≤ i → s.nodes i=none

theorem TreeInv.listing (h : TreeInv s) : Listing s := ⟨h.live,h.owner,h.once,h.nodup,h.fresh⟩

theorem TreeInv.contains_lt (h : TreeInv s) (d c : Nat) (hc : s.Contains d c) : d<c :=
  h.older c d (h.parent d c hc)

private theorem TreeInv.isTree (h : TreeInv s) : IsTree s where
  reachable := by
    intro d c hc
    apply reachable_of_rank id (fun i => s.kind i=some .dir) h.contains_lt
    · intro b hb hr
      obtain ⟨a,ha⟩ := h.listed b hb hr
      exact ⟨a,h.owner a b ha,ha,hb⟩
    · exact hc.2
  acyclic := acyclic_of_rank id h.contains_lt
  parent := h.parent

theorem TreeInv.create : TreeInv Tmpfs.create := by
  have hf : ∀ d, Tmpfs.create.files d=[] := by
    intro d
    by_cases hd : d=Tmpfs.root <;> simp [Tmpfs.files,Tmpfs.create,hd]
  have hp : ∀ d, Tmpfs.create.parent d=none := by
    intro d
    by_cases hd : d=Tmpfs.root <;> simp [Tmpfs.parent,Tmpfs.create]
  refine ⟨⟨rfl,by simp [hf]⟩,by simp [hf],by simp [hf],by simp [hf],
    by simp [hf],by simp [Tmpfs.Contains,hf],?_,by simp [hp],?_⟩
  · intro c hc hr
    simp [Tmpfs.kind,Tmpfs.create,hr] at hc
  · intro i hi
    have : i≠Tmpfs.root := by simp [Tmpfs.create,Tmpfs.root] at hi ⊢; omega
    simp [Tmpfs.create,this]

private theorem TreeInv.meetsParent (h : TreeInv s) (n : Nat) (hn : d<n)
    (hp : ReflTransGen s.Contains src d) : meetsParent s src n (some d)=some true := by
  induction hp generalizing n with
  | refl =>
    obtain ⟨n,rfl⟩ := Nat.exists_eq_add_of_lt hn
    exact if_pos rfl
  | tail _ hs ih =>
    rename_i b c _
    obtain ⟨m,rfl⟩ : ∃ m, n=m+1 := ⟨n-1,by omega⟩
    have hlt := h.contains_lt b c hs
    obtain ⟨node,hno,hpa⟩ := Option.bind_eq_some_iff.1 (h.parent b c hs)
    rw [Kernel.meetsParent,hno,Option.bind_some,hpa,ih m (by omega),ite_self]

section Views
variable (s : Tmpfs) (d i : Nat)

/-- What a change of a node leaves alone reads as before. -/
theorem update_view (view : Option TmpfsNode → α) (f : TmpfsNode → TmpfsNode)
    (hv : ∀ node, view (some (f node))=view (some node)) :
    view ((s.update d f).nodes i)=view (s.nodes i) := by
  by_cases h : i=d
  · subst h
    cases hn : s.nodes i <;> simp [Tmpfs.update,hn,hv]
  · simp [Tmpfs.update,h]

@[simp] theorem setFiles_kind : (s.setFiles d f).kind i=s.kind i :=
  update_view s d i (·.map _) _ fun _ => rfl

@[simp] theorem setFiles_parent : (s.setFiles d f).parent i=s.parent i :=
  update_view s d i (·.bind _) _ fun _ => rfl

theorem setFiles_files (hd : (s.kind d).isSome) :
    (s.setFiles d f).files i=if i=d then f (s.files d) else s.files i := by
  split_ifs with h
  · cases hn : s.nodes i <;> simp_all [Tmpfs.files,Tmpfs.kind,Tmpfs.setFiles,Tmpfs.update]
  · simp [Tmpfs.files,Tmpfs.setFiles,Tmpfs.update,h]

@[simp] theorem setName_kind : (s.setName d name).kind i=s.kind i :=
  update_view s d i (·.map _) _ fun _ => rfl

@[simp] theorem setName_parent : (s.setName d name).parent i=s.parent i :=
  update_view s d i (·.bind _) _ fun _ => rfl

@[simp] theorem setName_files : (s.setName d name).files i=s.files i :=
  update_view s d i (·.elim _ _) _ fun _ => rfl

theorem free_kind : (s.free d).kind i=if i=d then none else s.kind i := by
  by_cases h : i=d <;> simp [Tmpfs.kind,Tmpfs.free,h]

theorem free_parent : (s.free d).parent i=if i=d then none else s.parent i := by
  by_cases h : i=d <;> simp [Tmpfs.parent,Tmpfs.free,h]

theorem free_files : (s.free d).files i=if i=d then [] else s.files i := by
  by_cases h : i=d <;> simp [Tmpfs.files,Tmpfs.free,h]
end Views

theorem kind_eq_none {s : Tmpfs} : s.kind i=none ↔ s.nodes i=none := by
  simp [Tmpfs.kind]

/-- No node is made and the directories stay, apart from nodes without entries that go away. -/
theorem TreeInv.change {s s' : Tmpfs} (h : TreeInv s) (gone : Nat → Prop) (hne : s'.next=s.next)
    (hr : ¬ gone Tmpfs.root) (hki : ∀ i, ¬ gone i → s'.kind i=s.kind i ∧ s'.parent i=s.parent i)
    (hgo : ∀ i, gone i → s'.kind i=none ∧ s.files i=[])
    (hf : ∀ d, ∀ c∈s'.files d, ¬ gone c ∧ c≠Tmpfs.root ∧ (s.kind c).isSome ∧
      s.kind d=some .dir ∧ ¬ gone d ∧ (s.kind c=some .dir → c∈s.files d))
    (hke : ∀ d c, s.Contains d c → ¬ gone c → c∈s'.files d)
    (ho : ∀ d d' c, c∈s'.files d → c∈s'.files d' → d=d')
    (hnd : ∀ d, (s'.files d).Nodup) : TreeInv s' := by
  have hl : ∀ i k, s'.kind i=some k → ¬ gone i ∧ s.kind i=some k := by
    intro i k hk
    by_cases hg : gone i
    · simp [(hgo i hg).1] at hk
    · exact ⟨hg,(hki i hg).1 ▸ hk⟩
  refine ⟨⟨?_,?_⟩,?_,?_,ho,hnd,?_,?_,?_,?_⟩
  · rw [(hki _ hr).1]
    exact h.root.1
  · intro d hd
    exact (hf d _ hd).2.1 rfl
  · intro d c hc
    rw [(hki c (hf d c hc).1).1]
    exact (hf d c hc).2.2.1
  · intro d c hc
    obtain ⟨-,-,-,hd,hgd,-⟩ := hf d c hc
    rw [(hki d hgd).1]
    exact hd
  · rintro d c ⟨hc,hdi⟩
    obtain ⟨hg,hdi⟩ := hl c _ hdi
    rw [(hki c hg).2]
    exact h.parent d c ⟨(hf d c hc).2.2.2.2.2 hdi,hdi⟩
  · intro c hc hcr
    obtain ⟨hg,hdi⟩ := hl c _ hc
    obtain ⟨d,hd⟩ := h.listed c hdi hcr
    exact ⟨d,hke d c ⟨hd,hdi⟩ hg⟩
  · intro c p hp
    by_cases hg : gone c
    · have : s'.nodes c=none := kind_eq_none.mp (hgo c hg).1
      simp [Tmpfs.parent,this] at hp
    · exact h.older c p ((hki c hg).2 ▸ hp)
  · intro i hi
    have hn := kind_eq_none.mpr (h.fresh i (hne ▸ hi))
    apply kind_eq_none.mp
    by_cases hg : gone i
    · exact (hgo i hg).1
    · rw [(hki i hg).1,hn]

section Insert
variable {s : Tmpfs}

private theorem insert_kind :
    (s.insert d node).kind i=if i=s.next then some node.type else s.kind i := by
  rw [Tmpfs.insert,setFiles_kind]
  by_cases hi : i=s.next <;> simp [Tmpfs.kind,hi]

private theorem insert_parent :
    (s.insert d node).parent i=if i=s.next then node.parent else s.parent i := by
  rw [Tmpfs.insert,setFiles_parent]
  by_cases hi : i=s.next <;> simp [Tmpfs.parent,hi]

theorem insert_files (hd : (s.kind d).isSome) (hn : s.kind s.next=none)
    (hf : node.files=[]) : (s.insert d node).files i =
      if i=s.next then [] else if i=d then s.files d++[s.next] else s.files i := by
  have hne : d≠s.next := by
    rintro rfl
    simp [hn] at hd
  rw [Tmpfs.insert,setFiles_files _ d i (by simpa [Tmpfs.kind, hne] using hd)]
  by_cases hi : i=d
  · subst hi
    simp [Tmpfs.files,hne]
  · by_cases hin : i=s.next <;> simp [Tmpfs.files,hi,hin,hf]
    rintro rfl
    exact absurd rfl hne

section
variable (h : Listing s)
include h

theorem Listing.kind_next : s.kind s.next=none := kind_eq_none.mpr (h.fresh s.next le_rfl)

theorem Listing.files_next : s.files s.next=[] := by
  simp [Tmpfs.files,h.fresh]

theorem Listing.next_not_mem (x : Nat) : s.next∉s.files x := fun hx => by
  simpa [h.kind_next] using h.live x _ hx

private theorem Listing.lt_next {i : Nat} (hi : (s.kind i).isSome) : i < s.next := by
  by_contra hle
  simp [kind_eq_none.mpr (h.fresh i (by omega))] at hi

theorem Listing.mem_insert_files (hd : s.kind d=some .dir) (hf : node.files=[]) (x c : Nat) :
    c∈(s.insert d node).files x ↔ c∈s.files x ∨ x=d ∧ c=s.next := by
  rw [insert_files (by simp [hd]) h.kind_next hf]
  split_ifs with hx hxd
  · subst hx
    have hne : s.next≠d := fun he => by simp [← he,h.kind_next] at hd
    simp [h.files_next,hne]
  · subst hxd
    simp
  · simp [hxd]

end

theorem TreeInv.insert (h : TreeInv s) (hd : s.kind d=some .dir) (hf : node.files=[])
    (hpa : node.parent=if node.type = .dir then some d else none) :
    TreeInv (s.insert d node) := by
  have hr : Tmpfs.root < s.next := h.listing.lt_next (by simp [h.root.1])
  have hdl : d < s.next := h.listing.lt_next (by simp [hd])
  have hmem := h.listing.mem_insert_files hd hf
  refine ⟨⟨?_,?_⟩,?_,?_,?_,?_,?_,?_,?_,?_⟩
  · rw [insert_kind,if_neg (by omega)]
    exact h.root.1
  · intro x hx
    rcases (hmem x _).mp hx with hx | ⟨-,hx⟩
    · exact h.root.2 x hx
    · omega
  · intro x c hc
    rw [insert_kind]
    split_ifs
    · rfl
    rcases (hmem x c).mp hc with hc | ⟨-,rfl⟩
    · exact h.live x c hc
    · contradiction
  · intro x c hc
    rw [insert_kind]
    rcases (hmem x c).mp hc with hc | ⟨rfl,rfl⟩
    · rw [if_neg (fun hx => by simp [hx, h.listing.files_next] at hc)]
      exact h.owner x c hc
    · rw [if_neg (by omega)]
      exact hd
  · intro x x' c hc hc'
    rcases (hmem x c).mp hc with hx | ⟨rfl,hcn⟩ <;> rcases (hmem x' c).mp hc' with hx' | ⟨rfl,hcn'⟩
    · exact h.once x x' c hx hx'
    · exact absurd (hcn' ▸ hx) (h.listing.next_not_mem x)
    · exact absurd (hcn ▸ hx') (h.listing.next_not_mem x')
    · rfl
  · intro x
    rw [insert_files (by simp [hd]) h.listing.kind_next hf]
    split_ifs with hx hxd
    · exact nodup_nil
    · refine nodup_append.mpr ⟨h.nodup d,by simp,?_⟩
      intro c hc c' hc' heq
      obtain rfl := mem_singleton.mp hc'
      exact h.listing.next_not_mem d (heq ▸ hc)
    · exact h.nodup x
  · rintro x c ⟨hc,hdi⟩
    rw [insert_kind] at hdi
    rw [insert_parent]
    rcases (hmem x c).mp hc with hc | ⟨rfl,rfl⟩
    · have hcn : c≠s.next := fun he => h.listing.next_not_mem x (he ▸ hc)
      rw [if_neg hcn] at hdi ⊢
      exact h.parent x c ⟨hc,hdi⟩
    · rw [if_pos rfl] at hdi ⊢
      rw [hpa,if_pos (Option.some.inj hdi)]
  · intro c hc hr
    rw [insert_kind] at hc
    by_cases hcn : c=s.next
    · exact ⟨d,(hmem d c).mpr (.inr ⟨rfl,hcn⟩)⟩
    rw [if_neg hcn] at hc
    obtain ⟨x,hx⟩ := h.listed c hc hr
    exact ⟨x,(hmem x c).mpr (.inl hx)⟩
  · intro c p hp
    rw [insert_parent] at hp
    split_ifs at hp with hcn
    · rw [hpa] at hp
      split_ifs at hp
      obtain rfl := Option.some.inj hp
      omega
    · exact h.older c p hp
  · intro i hi
    have hi : s.next+1 ≤ i := hi
    apply kind_eq_none.mp
    rw [insert_kind,if_neg (by omega)]
    exact kind_eq_none.mpr (h.fresh i (by omega))
end Insert

theorem TreeInv.not_root (h : TreeInv s) (hi : i∈s.files d) : i≠Tmpfs.root := by
  rintro rfl
  exact h.root.2 d hi

theorem Listing.removed_files (h : Listing s) (hi : i∈s.files d) (he : s.files i=[]) :
    ((s.free i).setFiles d (·.erase i)).files x=(s.files x).erase i := by
  have hne : d≠i := by
    rintro rfl
    simp [he] at hi
  have hd := h.owner d i hi
  rw [setFiles_files _ d x (by simp [free_kind, hne, hd]),free_files,free_files]
  split_ifs with hxd hxi
  · rw [hxd]
  · simp [hxi,he]
  · rw [erase_of_not_mem]
    exact fun hx => hxd (h.once x d i hx hi)

theorem Listing.mem_removed_files (h : Listing s) (hi : i∈s.files d) (he : s.files i=[])
    (x c : Nat) : c∈((s.free i).setFiles d (·.erase i)).files x ↔ c≠i ∧ c∈s.files x := by
  rw [h.removed_files hi he,(h.nodup x).mem_erase_iff]

theorem TreeInv.remove (h : TreeInv s) (hi : i∈s.files d) (he : s.files i=[]) :
    TreeInv ((s.free i).setFiles d (·.erase i)) := by
  have hmem := h.listing.mem_removed_files hi he
  refine h.change (· = i) ?_ (h.not_root hi).symm ?_ ?_ ?_ ?_ ?_ ?_
  · rfl
  · intro x hx
    simp [free_kind,free_parent,hx]
  · rintro x rfl
    exact ⟨by simp [free_kind],he⟩
  · intro x c hc
    obtain ⟨hci,hc⟩ := (hmem x c).mp hc
    refine ⟨hci,h.not_root hc,h.live x c hc,h.owner x c hc,fun hx => ?_,fun _ => hc⟩
    rw [show x=i from hx,he] at hc
    simp at hc
  · rintro x c ⟨hc,-⟩ hci
    exact (hmem x c).mpr ⟨hci,hc⟩
  · intro x x' c hc hc'
    exact h.once x x' c ((hmem x c).mp hc).2 ((hmem x' c).mp hc').2
  · intro x
    rw [h.listing.removed_files hi he]
    exact (h.nodup x).erase i

def Moved (s : Tmpfs) (src dd x c : Nat) : Prop := c≠src ∧ c∈s.files x ∨ c=src ∧ x=dd

theorem TreeInv.moved_once (h : TreeInv s) (hx : Moved s src dd x c) (hx' : Moved s src dd x' c) :
    x=x' := by
  obtain ⟨hne,hc⟩ | ⟨heq,rfl⟩ := hx
  · obtain ⟨-,hc'⟩ | ⟨heq',-⟩ := hx'
    · exact h.once x x' c hc hc'
    · exact absurd heq' hne
  · obtain ⟨hne',-⟩ | ⟨-,rfl⟩ := hx'
    · exact absurd heq hne'
    · rfl

theorem TreeInv.moved_of_contains (h : TreeInv s) (hsrc : src∈s.files ds)
    (hs : s.kind src=some .dir → ds=dd) (hc : s.Contains x c) : Moved s src dd x c := by
  by_cases hcs : c=src
  · subst hcs
    exact .inr ⟨rfl,(h.once x ds c hc.1 hsrc).trans (hs hc.2)⟩
  · exact .inl ⟨hcs,hc.1⟩

theorem TreeInv.moved_entry (h : TreeInv s) (hsrc : src∈s.files ds) (hdd : s.kind dd=some .dir)
    (hs : s.kind src=some .dir → ds=dd) (hc : Moved s src dd x c) :
    c≠Tmpfs.root ∧ (s.kind c).isSome ∧ s.kind x=some .dir ∧
      (s.kind c=some .dir → c∈s.files x) := by
  obtain ⟨-,hc⟩ | ⟨rfl,rfl⟩ := hc
  · exact ⟨h.not_root hc,h.live x c hc,h.owner x c hc,fun _ => hc⟩
  · exact ⟨h.not_root hsrc,h.live ds c hsrc,hdd,fun hd => hs hd ▸ hsrc⟩

abbrev movedTo (s : Tmpfs) (ds dd src : Nat) (name : CString) : Tmpfs :=
  ((s.setName src name).setFiles dd (· ++ [src])).setFiles ds (·.erase src)

section
variable (h : Listing s) (hsrc : src ∈ s.files ds) (hdd : s.kind dd = some .dir)
include h hsrc hdd

theorem Listing.moved_files : (movedTo s ds dd src name).files x =
    (s.files x).erase src++if x=dd then [src] else [] := by
  have hds := h.owner ds src hsrc
  have ho : ∀ x, x≠ds → src∉s.files x := fun x hx hs => hx (h.once x ds src hs hsrc)
  rw [setFiles_files _ ds x (by simp [hds]),setFiles_files _ dd ds (by simp [hdd]),
    setFiles_files _ dd x (by simp [hdd])]
  by_cases hx : x=ds
  · subst hx
    by_cases hxd : x=dd
    · subst hxd
      simp [erase_append_left _ hsrc]
    · simp [hxd]
  · by_cases hxd : x=dd
    · subst hxd
      simp [hx,erase_of_not_mem (ho x hx)]
    · simp [hx,hxd,erase_of_not_mem (ho x hx)]

theorem Listing.mem_moved_files (name : CString) (x c : Nat) :
    c∈(movedTo s ds dd src name).files x ↔ Moved s src dd x c := by
  rw [h.moved_files hsrc hdd,mem_append,(h.nodup x).mem_erase_iff]
  split_ifs with hxd <;> simp [Moved,hxd]

end

private theorem TreeInv.move (h : TreeInv s) (hsrc : src∈s.files ds) (hdd : s.kind dd=some .dir)
    (hs : s.kind src=some .dir → ds=dd) :
    TreeInv (movedTo s ds dd src name) := by
  have hmem := h.listing.mem_moved_files hsrc hdd name
  refine h.change (fun _ => False) ?_ id ?_ ?_ ?_ ?_ ?_ ?_
  · rfl
  · simp
  · simp
  · intro x c hc
    obtain ⟨hr,hl,ho,hd⟩ := h.moved_entry hsrc hdd hs ((hmem x c).mp hc)
    exact ⟨id,hr,hl,ho,id,hd⟩
  · intro x c hc _
    exact (hmem x c).mpr (h.moved_of_contains hsrc hs hc)
  · intro x x' c hc hc'
    exact h.moved_once ((hmem x c).mp hc) ((hmem x' c).mp hc')
  intro x
  rw [h.listing.moved_files hsrc hdd]
  refine nodup_append.mpr ⟨(h.nodup x).erase src,by split_ifs <;> simp,?_⟩
  intro c hc c' hc' heq
  have hne := ((h.nodup x).mem_erase_iff.mp hc).1
  split_ifs at hc'
  · exact hne (heq.trans (mem_singleton.mp hc'))
  · simp at hc'

abbrev replaced (s : Tmpfs) (ds dd src t : Nat) (name : CString) : Tmpfs :=
  (((s.setName src name).setFiles ds (·.erase src)).setFiles dd
    fun files => files.map fun i => if i=t then src else i).free t

section
variable (h : Listing s) (hsrc : src ∈ s.files ds) (ht : t ∈ s.files dd)
include h hsrc ht

theorem Listing.replaced_files (hem : s.files t=[]) : (replaced s ds dd src t name).files x =
      ((s.files x).erase src).map fun i => if i=t then src else i := by
  have hds := h.owner ds src hsrc
  have hdd := h.owner dd t ht
  have he : ((s.setName src name).setFiles ds (·.erase src)).files x=(s.files x).erase src := by
    rw [setFiles_files _ ds x (by simp [hds])]
    simp only [setName_files]
    split_ifs with hx
    · rw [hx]
    · rw [erase_of_not_mem fun hs => hx (h.once x ds src hs hsrc)]
  rw [free_files]
  split_ifs with hxt
  · simp [hxt,hem]
  rw [setFiles_files _ dd x (by simp [hdd])]
  split_ifs with hx
  · rw [← hx,he]
  rw [he]
  have hsa : ∀ i∈(s.files x).erase src, (if i=t then src else i)=i := by
    intro i hi
    rw [if_neg]
    rintro rfl
    exact hx (h.once x dd i (mem_of_mem_erase hi) ht)
  rw [map_congr_left hsa,map_id']

theorem Listing.mem_replaced_files (hne : src≠t) (he : s.files t=[]) (name : CString)
    (x c : Nat) : c∈(replaced s ds dd src t name).files x ↔ c≠t ∧ Moved s src dd x c := by
  rw [h.replaced_files hsrc ht he,mem_map]
  constructor
  · rintro ⟨i,hi,rfl⟩
    obtain ⟨his,hi⟩ := (h.nodup x).mem_erase_iff.mp hi
    split_ifs with hit
    · subst hit
      exact ⟨hne,.inr ⟨rfl,h.once x dd i hi ht⟩⟩
    · exact ⟨hit,.inl ⟨his,hi⟩⟩
  · rintro ⟨hct,⟨hcs,hc⟩ | ⟨rfl,rfl⟩⟩
    · exact ⟨c,(h.nodup x).mem_erase_iff.mpr ⟨hcs,hc⟩,if_neg hct⟩
    · exact ⟨t,(h.nodup x).mem_erase_iff.mpr ⟨hne.symm,ht⟩,if_pos rfl⟩

end

private theorem TreeInv.replace (h : TreeInv s) (hsrc : src∈s.files ds) (ht : t∈s.files dd)
    (hne : src≠t) (he : s.files t=[]) (hs : s.kind src=some .dir → ds=dd) :
    TreeInv (replaced s ds dd src t name) := by
  have hdd := h.owner dd t ht
  have htd : t≠dd := by
    rintro rfl
    simp [he] at ht
  have hmem := h.listing.mem_replaced_files hsrc ht hne he name
  refine h.change (· = t) ?_ (h.not_root ht).symm ?_ ?_ ?_ ?_ ?_ ?_
  · rfl
  · intro x hx
    simp [free_kind,free_parent,hx]
  · rintro x rfl
    exact ⟨by simp [free_kind],he⟩
  · intro x c hc
    obtain ⟨hct,hm⟩ := (hmem x c).mp hc
    obtain ⟨hr,hl,ho,hd⟩ := h.moved_entry hsrc hdd hs hm
    refine ⟨hct,hr,hl,ho,?_,hd⟩
    rintro rfl
    obtain ⟨-,hc⟩ | ⟨-,heq⟩ := hm
    · simp [he] at hc
    · exact htd heq
  · intro x c hc hct
    exact (hmem x c).mpr ⟨hct,h.moved_of_contains hsrc hs hc⟩
  · intro x x' c hc hc'
    exact h.moved_once ((hmem x c).mp hc).2 ((hmem x' c).mp hc').2
  · intro x
    refine (h.listing.replaced_files hsrc ht he).symm ▸ ((h.nodup x).erase src).map_on ?_
    intro i hi j hj hij
    have his := ((h.nodup x).mem_erase_iff.mp hi).1
    have hjs := ((h.nodup x).mem_erase_iff.mp hj).1
    split_ifs at hij with hit hjt
    · exact hit.trans hjt.symm
    · exact absurd hij.symm hjs
    · exact absurd hij his
    · exact hij

section Step
variable {s : Tmpfs}

theorem dir?_spec (h : s.dir? d=some dir) : s.kind d=some .dir ∧ s.files d=dir.files := by
  obtain ⟨hn,hty⟩ := Option.filter_eq_some_iff.mp h
  simp [Tmpfs.kind,Tmpfs.files,hn,beq_iff_eq.mp hty]

theorem lookup_mem (hd : s.dir? d=some dir) (hi : s.lookup dir test=some i) : i∈s.files d := by
  rw [(dir?_spec hd).2]
  exact mem_of_find?_eq_some hi

private theorem typeIs_iff : s.typeIs i type=true ↔ s.kind i=some type := by
  cases hn : s.nodes i <;> simp [Tmpfs.typeIs,Tmpfs.kind,hn]

theorem Listing.files_eq_nil (h : Listing s)
    (hi : ¬ (s.nodes i).any fun node => node.type == .dir && !node.files.isEmpty) :
    s.files i=[] := by
  by_contra hne
  obtain ⟨c,hc⟩ := exists_mem_of_ne_nil _ hne
  have hd := h.owner i c hc
  cases hn : s.nodes i <;> simp_all [Tmpfs.files,Tmpfs.kind]

/-- A rename does not take a directory to another directory, unless the walk to the root
refuses it. -/
def DirectoryStays (s : Tmpfs) : TmpfsCall → Prop
  | .rename ds srcName dd _ => ∀ sdir∈s.dir? ds, ∀ src∈s.lookup sdir (pathComp srcName),
      s.typeIs src .dir → ds=dd ∨ meetsParent s src (dd+1) (some dd)=some true
  | _ => True

private theorem TreeInv.moveEntry (h : TreeInv s) (hmem : src∈s.files ds)
    (hdd : s.dir? dd=some ddir) (hs : s.kind src=some .dir → ds=dd) :
    TreeInv (moveEntry s ds src dd (s.lookup ddir (pathComp destName)) destName).2 := by
  unfold Kernel.moveEntry
  split
  · split_ifs
    · exact h
    · exact h.move hmem (dir?_spec hdd).1 hs
  next t ht =>
    split_ifs with hsa hf
    · exact h
    · exact h
    · exact h
    · exact h
    · exact h.replace hmem (lookup_mem hdd ht) hsa (h.listing.files_eq_nil hf) hs

theorem TreeInv.renameTmpfs (h : TreeInv s) (hds : s.dir? ds=some sdir)
    (hdd : s.dir? dd=some ddir) (hst : DirectoryStays s (.rename ds srcName dd destName))
    (hr : renameTmpfs s ds sdir srcName dd ddir destName=some r) : TreeInv r.2 := by
  unfold Kernel.renameTmpfs at hr
  split at hr
  · cases hr
    exact h
  next src hsrc =>
    dsimp only at hr
    split at hr
    · cases hr
      exact h
    split at hr
    · cases hr
      exact h
    obtain ⟨below,hw,rfl⟩ := Option.map_eq_some_iff.1 hr
    cases below with
    | true => exact h
    | false =>
      refine h.moveEntry (lookup_mem hds hsrc) hdd fun hd => ?_
      have hty := typeIs_iff.mpr hd
      rw [if_pos hty] at hw
      refine (hst sdir hds src hsrc hty).resolve_right fun hm => ?_
      rw [hm] at hw
      cases hw

private theorem TreeInv.step (h : TreeInv s) (hst : DirectoryStays s c)
    (hs : tmpfsStep s c=some (ret, s')) : TreeInv s' := by
  cases c with
  | create d name | symlink d name =>
    obtain ⟨dir,hd,hr⟩ := Option.map_eq_some_iff.mp hs
    simp only [createTmpfs,symlinkTmpfs] at hr
    split_ifs at hr <;> obtain ⟨-,rfl⟩ := Prod.mk.inj hr
    · exact h
    · exact h.insert (dir?_spec hd).1 rfl rfl
  | mkdir d name permitted =>
    obtain ⟨dir,hd,hr⟩ := Option.map_eq_some_iff.mp hs
    simp only [mkdirTmpfs] at hr
    split_ifs at hr <;> obtain ⟨-,rfl⟩ := Prod.mk.inj hr
    · exact h
    · exact h
    · exact h
    · exact h.insert (dir?_spec hd).1 rfl rfl
  | unlink d name =>
    obtain ⟨dir,hd,hr⟩ := Option.map_eq_some_iff.mp hs
    simp only [unlinkTmpfs] at hr
    split at hr
    · obtain ⟨-,rfl⟩ := Prod.mk.inj hr
      exact h
    next i hi =>
      split_ifs at hr with hf <;> obtain ⟨-,rfl⟩ := Prod.mk.inj hr
      · exact h
      · exact h.remove (lookup_mem hd hi) (h.listing.files_eq_nil hf)
  | rename ds srcName dd destName =>
    obtain ⟨sdir,hds,hr⟩ := Option.bind_eq_some_iff.mp hs
    obtain ⟨ddir,hdd,hr⟩ := Option.bind_eq_some_iff.mp hr
    exact h.renameTmpfs hds hdd hst hr

/-- A directory is not moved below itself: the call fails and changes nothing. -/
theorem TreeInv.rename_refused (h : TreeInv s) (hsrc : s.lookup sdir (pathComp srcName)=some src)
    (hd : s.typeIs src .dir) (hb : ReflTransGen s.Contains src dd) :
    ∃ ret<0, Kernel.renameTmpfs s ds sdir srcName dd ddir destName=some (ret, s) := by
  have hw := h.meetsParent (dd+1) (Nat.lt_succ_self dd) hb
  simp only [Kernel.renameTmpfs,hsrc,hd,hw,Bool.not_true,Bool.false_and,Bool.false_eq_true,if_false,
    if_true,Option.map_some]
  split_ifs
  · exact ⟨errNotDir,by decide,rfl⟩
  · exact ⟨errInval,by decide,rfl⟩
end Step

/-- The states of a mount after calls of which none takes a directory to another one. -/
inductive TmpfsReachable : Tmpfs → Prop
  | create : TmpfsReachable Tmpfs.create
  | step : TmpfsReachable s → DirectoryStays s c → tmpfsStep s c=some (ret, s') → TmpfsReachable s'

private theorem TmpfsReachable.inv (h : TmpfsReachable s) : TreeInv s := by
  induction h with
  | create => exact .create
  | step _ hs hst ih => exact ih.step hs hst

/-- After calls of which none takes a directory to another one, the directories form a tree with the
right `parent` fields, and every rename of a directory into its own subtree is refused. -/
theorem tmpfs_stays_tree {s : Tmpfs} (h : TmpfsReachable s) :
    IsTree s ∧ ∀ ds dd src sdir ddir srcName destName, s.dir? ds = some sdir →
      s.dir? dd = some ddir → s.lookup sdir (pathComp srcName) = some src → s.typeIs src .dir →
      ReflTransGen s.Contains src dd →
        ∃ ret < 0, renameTmpfs s ds sdir srcName dd ddir destName = some (ret, s) :=
  ⟨h.inv.isTree,fun _ _ _ _ _ _ _ _ _ hsrc hd hb => h.inv.rename_refused hsrc hd hb⟩

def tmpfsRun : Tmpfs → List TmpfsCall → Option Tmpfs
  | s, [] => some s
  | s, c::calls => (tmpfsStep s c).bind fun r => tmpfsRun r.2 calls

instance (s : Tmpfs) (d c : Nat) : Decidable (s.Contains d c) :=
  inferInstanceAs (Decidable (_ ∧ _))

theorem tmpfs_stays_tree_nested :
    ∃ s, TmpfsReachable s ∧ s.Contains 1 2 ∧ ReflTransGen s.Contains Tmpfs.root 2 := by
  have h1 := TmpfsReachable.create.step (c := .mkdir 0 (cString "a") true) trivial rfl
  have h2 := h1.step (c := .mkdir 1 (cString "b") true) trivial rfl
  exact ⟨_,h2,by decide,(tmpfs_stays_tree h2).1.reachable 1 2 (by decide)⟩

/-- `a` is moved into `b`, then `b` into `a`, whose `parent` field still names the root. -/
theorem rename_makes_cycle : ∃ s ∈ tmpfsRun Tmpfs.create
        [.mkdir 0 (cString "a") true, .mkdir 0 (cString "b") true,
          .rename 0 (cString "a") 2 (cString "a"), .rename 0 (cString "b") 1 (cString "b")],
      s.files Tmpfs.root = [] ∧ TransGen s.Contains 1 1 := by
  refine ⟨_,rfl,by decide,.tail (.single (b := 2) ?_) ?_⟩
  · decide
  · decide
end RazionOS.Kernel
