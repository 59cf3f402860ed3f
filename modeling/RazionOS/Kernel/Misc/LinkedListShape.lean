import RazionOS.Framework.Linked
import RazionOS.Framework.Loop
import RazionOS.Kernel.Misc.LinkedList

/-! # The shape of kernel lists -/

namespace RazionOS.Kernel.LinkedList
open Framework Function List

variable {ns A B : List Nat}

def Heap.nextOf (st : Heap) (list : Nat) : Ptr → Ptr
  | none => st.head list
  | some n => st.next n

def Heap.prevOf (st : Heap) (list : Nat) : Ptr → Ptr
  | none => st.tail list
  | some n => st.prev n

theorem ne_getLast? (h : n∉A) : some n≠A.getLast? :=
  fun heq => h (mem_of_getLast? heq.symm)

theorem ne_head? (h : n∉A) : some n≠A.head? := fun heq => h (mem_of_head? heq.symm)

structure IsList (st : Heap) (l : Nat) (ns : List Nat) : Prop where
  list : st.list l=true
  forward : Linked (st.nextOf l) ns
  backward : Linked (st.prevOf l) ns.reverse
  length : st.length l=ns.length
  node : ∀ n∈ns, st.node n=true
  owner : ∀ n∈ns, st.owner n=some l

structure Shape (st : Heap) (lists : Nat → Option (List Nat)) : Prop where
  isList : ∀ l ns, lists l=some ns → IsList st l ns
  inUse : ∀ l, st.list l=true → ∃ ns, lists l=some ns
  owned : ∀ n l, st.node n=true → st.owner n=some l → ∃ ns, lists l=some ns ∧ n∈ns
  detached : ∀ n, st.node n=true → st.owner n=none → st.next n=none ∧ st.prev n=none

namespace IsList

theorem nodup (h : IsList st l ns) : ns.Nodup := h.forward.nodup

theorem head (h : IsList st l ns) : st.head l=ns.head? := LinkedFrom.next_eq h.forward

theorem tail (h : IsList st l ns) : st.tail l=ns.getLast? := by
  rw [← head?_reverse]
  exact LinkedFrom.next_eq h.backward

theorem next_mem (h : IsList st l (A++x::B)) : st.next x=B.head? := h.forward.next_mem

theorem prev_mem (h : IsList st l (A++x::B)) : st.prev x=A.getLast? := by
  have hb := h.backward
  rw [reverse_append,reverse_cons,append_assoc] at hb
  rw [← head?_reverse]
  exact hb.next_mem

theorem congr (h : IsList st l ns) (hli : st'.list l=st.list l) (hh : st'.head l=st.head l)
    (ht : st'.tail l=st.tail l) (hlen : st'.length l=st.length l)
    (hns : ∀ n∈ns, st'.next n=st.next n ∧ st'.prev n=st.prev n ∧
      st'.owner n=st.owner n ∧ st'.node n=st.node n) : IsList st' l ns where
  list := hli.trans h.list
  forward := h.forward.congr hh fun n hn => (hns n hn).1
  backward := h.backward.congr ht fun n hn => (hns n (mem_reverse.1 hn)).2.1
  length := hlen.trans h.length
  node n hn := (hns n hn).2.2.2.trans (h.node n hn)
  owner n hn := (hns n hn).2.2.1.trans (h.owner n hn)

private theorem eq_head_iff (h : IsList st l (A++x::B)) : some x=st.head l ↔ A=[] := by
  have hmem := (nodup_middle.1 h.nodup).notMem
  rw [h.head]
  cases A with
  | nil => simp
  | cons y A =>
    have hxy : x≠y := fun heq => hmem (by simp [heq])
    simp [hxy]

private theorem eq_tail_iff (h : IsList st l (A++x::B)) : some x=st.tail l ↔ B=[] := by
  have hmem := (nodup_middle.1 h.nodup).notMem
  rw [h.tail]
  rcases eq_nil_or_concat' B with rfl | ⟨B,y,rfl⟩
  · simp
  have hxy : x≠y := fun heq => hmem (by simp [heq])
  rw [← cons_append,← append_assoc,getLast?_concat]
  simp [hxy]
end IsList

theorem Shape.mem_of_owner (hst : Shape st lists) (hl : lists l=some ns) (hn : st.node n=true)
    (ho : st.owner n=some l) : n∈ns := by
  obtain ⟨ms,hms,hmem⟩ := hst.owned n l hn ho
  rw [hl] at hms
  cases hms
  exact hmem

theorem ne_some_of_not_mem (hq : q=none ∨ ∃ y∈ns, q=some y) (hx : x∉ns) : q≠some x := by
  rcases hq with rfl | ⟨y,hy,rfl⟩
  · exact nofun
  · exact fun heq => hx (Option.some.inj heq ▸ hy)

theorem Shape.change (hst : Shape st lists) (hl : lists l=some ns) (hnew : IsList st' l ns')
    (hli : st'.list=st.list) (hh : ∀ l' ≠ l, st'.head l' = st.head l')
    (ht : ∀ l' ≠ l, st'.tail l' = st.tail l') (hlen : ∀ l' ≠ l, st'.length l' = st.length l')
    (hno : st'.node=st.node)
    (ho : ∀ n, st.owner n≠some l → n∉ns' →
      st'.next n=st.next n ∧ st'.prev n=st.prev n ∧ st'.owner n=st.owner n)
    (hle : ∀ n∈ns, n∉ns' → st'.next n=none ∧ st'.prev n=none ∧ st'.owner n=none)
    (he : ∀ n∈ns', n∉ns → st.owner n=none) : Shape st' (update lists l (some ns')) := by
  have hold := hst.isList l ns hl
  constructor
  case isList =>
    intro l' ms hms
    by_cases hl' : l' = l
    · subst hl'
      rw [update_self] at hms
      cases hms
      exact hnew
    rw [update_of_ne hl'] at hms
    have hli' := hst.isList l' ms hms
    apply hli'.congr (by rw [hli]) (hh l' hl') (ht l' hl') (hlen l' hl')
    intro n hn
    have how := hli'.owner n hn
    have hne : st.owner n≠some l := by
      rw [how]
      exact fun heq => hl' (Option.some.inj heq)
    have hns' : n∉ns' := by
      intro hmem
      by_cases hns : n∈ns
      · exact hne (hold.owner n hns)
      · rw [he n hmem hns] at how
        cases how
    have hs := ho n hne hns'
    exact ⟨hs.1,hs.2.1,hs.2.2,by rw [hno]⟩
  case inUse =>
    intro l' hl'
    by_cases heq : l' = l
    · exact ⟨ns',by rw [heq,update_self]⟩
    rw [update_of_ne heq]
    rw [hli] at hl'
    exact hst.inUse l' hl'
  case owned =>
    intro n l' hn how
    rw [hno] at hn
    by_cases hns' : n∈ns'
    · rw [hnew.owner n hns'] at how
      cases how
      exact ⟨ns',update_self ..,hns'⟩
    by_cases hns : n∈ns
    · rw [(hle n hns hns').2.2] at how
      cases how
    have hne : st.owner n≠some l := fun heq => hns (hst.mem_of_owner hl hn heq)
    rw [(ho n hne hns').2.2] at how
    have hl' : l' ≠ l := fun heq => hne (heq ▸ how)
    rw [update_of_ne hl']
    exact hst.owned n l' hn how
  case detached =>
    intro n hn how
    rw [hno] at hn
    have hns' : n∉ns' := by
      intro hmem
      rw [hnew.owner n hmem] at how
      cases how
    by_cases hns : n∈ns
    · exact ⟨(hle n hns hns').1,(hle n hns hns').2.1⟩
    have hne : st.owner n≠some l := fun heq => hns (hst.mem_of_owner hl hn heq)
    have hs := ho n hne hns'
    rw [hs.2.2] at how
    rw [hs.1,hs.2.1]
    exact hst.detached n hn how

/-- The list has the links `N` and `P`, and no other list changes. -/
structure Relinks (st : Heap) (l : Nat) (N P : Ptr → Ptr) (st' : Heap) : Prop where
  node : st'.node=st.node
  value : st'.value=st.value
  head : ∀ l' ≠ l, st'.head l' = st.head l'
  tail : ∀ l' ≠ l, st'.tail l' = st.tail l'
  nextOf : ∀ q, st'.nextOf l q=N q
  prevOf : ∀ q, st'.prevOf l q=P q

theorem relinks_intro {next prev head tail : Nat → Ptr}
    (hn : ∀ n, next n=N (some n) := by simp [Heap.nextOf,update_apply])
    (hp : ∀ n, prev n=P (some n) := by simp [Heap.prevOf,update_apply])
    (hh : ∀ l', head l' = if l' = l then N none else st.head l' := by
      simp [Heap.nextOf,update_apply])
    (ht : ∀ l', tail l' = if l' = l then P none else st.tail l' := by
      simp +contextual [*,Heap.prevOf,update_apply]) :
    Relinks st l N P ⟨st.node,next,prev,st.value,o,u,head,tail,k⟩ where
  node := rfl
  value := rfl
  head l' hl' := by simp [hh,hl']
  tail l' hl' := by simp [ht,hl']
  nextOf q := by
    cases q with
    | none => simp [Heap.nextOf,hh]
    | some n => simp [Heap.nextOf,hn]
  prevOf q := by
    cases q with
    | none => simp [Heap.prevOf,ht]
    | some n => simp [Heap.prevOf,hp]

structure Inserts (st : Heap) (l : Nat) (A : List Nat) (x : Nat) (B : List Nat) (st' : Heap) : Prop
    extends Relinks st l
      (fun q => if q=A.getLast? then some x else if q=some x then B.head? else st.nextOf l q)
      (fun q => if q=B.head? then some x else if q=some x then A.getLast? else st.prevOf l q) st'
    where
  list : st'.list=st.list
  owner : st'.owner=update st.owner x (some l)
  length : st'.length=update st.length l (st.length l + 1)

section
variable (h : Inserts st l A x B st')
include h

theorem Inserts.isList (hl : IsList st l (A++B))
    (hx : st.node x=true) (hnew : x∉A++B) : IsList st' l (A++x::B) where
  list := by rw [h.list,hl.list]
  forward := by
    apply hl.forward.insert
    · rw [h.nextOf,if_pos rfl]
    · rw [h.nextOf,if_neg (ne_getLast? (mt (mem_append_left B) hnew)),if_pos rfl,
      hl.forward.next_last]
    · intro q hq hne
      rw [h.nextOf,if_neg hne,if_neg (ne_some_of_not_mem hq hnew)]
  backward := by
    have hh := ne_head? (mt (mem_append_right A) hnew)
    have hb := hl.backward
    rw [reverse_append] at hb
    rw [reverse_append,reverse_cons,append_assoc]
    apply hb.insert
    · rw [h.prevOf,getLast?_reverse,if_pos rfl]
    · rw [h.prevOf,if_neg hh,if_pos rfl,hb.next_last,head?_reverse]
    intro q hq hne
    rw [getLast?_reverse] at hne
    rw [← reverse_append] at hq
    rw [h.prevOf,if_neg hne,if_neg (ne_some_of_not_mem hq (mt mem_reverse.1 hnew))]
  length := by
    rw [h.length,update_self,hl.length,length_append,length_append,length_cons,Nat.add_assoc]
  node n hn := by
    rw [h.node]
    rcases mem_append.1 hn with hA | hB
    · exact hl.node n (mem_append_left _ hA)
    rcases mem_cons.1 hB with rfl | hB
    · exact hx
    · exact hl.node n (mem_append_right _ hB)
  owner n hn := by
    rw [h.owner]
    by_cases hnx : n=x
    · rw [hnx,update_self]
    rw [update_of_ne hnx]
    apply hl.owner n
    simpa [hnx] using hn

private theorem Inserts.next_other (hA : n∉A) (hx : n≠x) : st'.next n=st.next n := by
  have hn := h.nextOf (some n)
  rwa [if_neg (ne_getLast? hA),if_neg (mt Option.some.inj hx)] at hn

private theorem Inserts.prev_other (hB : n∉B) (hx : n≠x) : st'.prev n=st.prev n := by
  have hp := h.prevOf (some n)
  rwa [if_neg (ne_head? hB),if_neg (mt Option.some.inj hx)] at hp

theorem Inserts.shape (hst : Shape st lists)
    (hl : lists l=some (A++B)) (hx : st.node x=true) (hf : st.owner x=none) :
    Shape st' (update lists l (some (A++x::B))) := by
  have hli := hst.isList l _ hl
  have hnew : x∉A++B := by
    intro hmem
    have ho := hli.owner x hmem
    rw [hf] at ho
    cases ho
  apply hst.change hl (h.isList hli hx hnew) h.list h.head h.tail _ h.node
  · intro n ho hmem
    simp only [mem_append,mem_cons,not_or] at hmem
    exact ⟨h.next_other hmem.1 hmem.2.1,h.prev_other hmem.2.2 hmem.2.1,
      by rw [h.owner,update_of_ne hmem.2.1]⟩
  · intro n hmem hg
    simp only [mem_append] at hmem hg
    tauto
  · intro n hmem hfi
    have hnx : n=x := by
      simp only [mem_append,mem_cons] at hmem hfi
      tauto
    rw [hnx,hf]
  · intro l' hl'
    rw [h.length,update_of_ne hl']

end

structure Deletes (st : Heap) (l : Nat) (A : List Nat) (x : Nat) (B : List Nat) (st' : Heap) : Prop
    extends Relinks st l
      (fun q => if q=some x then none else if q=A.getLast? then B.head? else st.nextOf l q)
      (fun q => if q=some x then none else if q=B.head? then A.getLast? else st.prevOf l q) st'
    where
  list : st'.list=st.list
  owner : st'.owner=update st.owner x none
  length : st'.length=update st.length l (st.length l - 1)

theorem Deletes.isList (h : Deletes st l A x B st') (hl : IsList st l (A++x::B)) :
    IsList st' l (A++B) := by
  have hx := (nodup_middle.1 hl.nodup).notMem
  have hsub : ∀ n∈A++B, n≠x ∧ n∈A++x::B := by
    intro n hn
    constructor
    · rintro rfl
      exact hx hn
    · simp only [mem_append] at hn ⊢
      tauto
  have hla := (ne_getLast? (mt (mem_append_left B) hx)).symm
  have hh := (ne_head? (mt (mem_append_right A) hx)).symm
  constructor
  case list => rw [h.list,hl.list]
  case forward =>
    apply hl.forward.remove
    · rw [h.nextOf,if_neg hla,if_pos rfl]
      exact hl.next_mem.symm
    · intro q hq hne
      rw [h.nextOf,if_neg (ne_some_of_not_mem hq hx),if_neg hne]
  case backward =>
    have hb := hl.backward
    rw [reverse_append,reverse_cons,append_assoc,singleton_append] at hb
    rw [reverse_append]
    apply hb.remove
    · rw [h.prevOf,getLast?_reverse,if_neg hh,if_pos rfl]
      exact hl.prev_mem.symm
    · intro q hq hne
      simp only [getLast?_reverse,← reverse_append,mem_reverse] at hq hne
      rw [h.prevOf,if_neg (ne_some_of_not_mem hq hx),if_neg hne]
  case length =>
    rw [h.length,update_self,hl.length,length_append,length_append,length_cons]
    omega
  case node =>
    intro n hn
    rw [h.node]
    exact hl.node n (hsub n hn).2
  case owner =>
    intro n hn
    rw [h.owner,update_of_ne (hsub n hn).1]
    exact hl.owner n (hsub n hn).2

theorem Deletes.shape (h : Deletes st l A x B st') (hst : Shape st lists)
    (hl : lists l=some (A++x::B)) : Shape st' (update lists l (some (A++B))) := by
  have hli := hst.isList l _ hl
  apply hst.change hl (h.isList hli) h.list h.head h.tail _ h.node
  · intro n ho hmem
    have hnx : n≠x := by
      rintro rfl
      exact ho (hli.owner n (by simp))
    have hs := mt Option.some.inj hnx
    have hn := h.nextOf (some n)
    have hp := h.prevOf (some n)
    rw [if_neg hs,if_neg (ne_getLast? (mt (mem_append_left B) hmem))] at hn
    rw [if_neg hs,if_neg (ne_head? (mt (mem_append_right A) hmem))] at hp
    exact ⟨hn,hp,by rw [h.owner,update_of_ne hnx]⟩
  · intro n hmem hg
    have hnx : n=x := by
      simp only [mem_append,mem_cons] at hmem hg
      tauto
    have hn := h.nextOf (some x)
    have hp := h.prevOf (some x)
    rw [if_pos rfl] at hn hp
    subst hnx
    exact ⟨hn,hp,by rw [h.owner,update_self]⟩
  · intro n hmem hf
    simp only [mem_append] at hmem hf
    tauto
  · intro l' hl'
    rw [h.length,update_of_ne hl']

section Operations
variable (hl : IsList st l ns) (hx : st.node x = true) (hnew : x ∉ ns)

include hl hx hnew

theorem listAppend_inserts :
    Yields (fun _ => False) (Inserts st l ns x []) (listAppend l x st) := by
  have hli := hl.list
  have hlen := hl.length
  have ht := hl.tail
  rcases eq_nil_or_concat' ns with rfl | ⟨A,last,rfl⟩
  · simp [listAppend,hx,hli,hlen]
    exact .ok ⟨relinks_intro,rfl,rfl,by simp [hlen]⟩
  have hla := hl.node last (by simp)
  simp [listAppend,hx,hli,hlen,ht,hla]
  exact .ok ⟨relinks_intro,rfl,rfl,by simp [hlen]⟩

omit hl hx hnew in
private theorem Inserts.of_setOwner (h : Inserts (st.setOwner x (some l)) l A x B st') :
    Inserts st l A x B st' where
  node := h.node
  value := h.value
  list := h.list
  owner := by
    have ho := h.owner
    rwa [Heap.setOwner,update_idem] at ho
  length := h.length
  head := h.head
  tail := h.tail
  nextOf := h.nextOf
  prevOf := h.prevOf

theorem listAppend_inserts_setOwner :
    Yields (fun _ => False) (Inserts st l ns x []) (listAppend l x (st.setOwner x (some l))) := by
  have hl' : IsList (st.setOwner x (some l)) l ns := by
    refine hl.congr rfl rfl rfl rfl fun n hn => ⟨rfl,rfl,?_,rfl⟩
    have hne : n≠x := fun heq => hnew (heq ▸ hn)
    exact update_of_ne hne ..
  exact (listAppend_inserts hl' hx hnew).mono fun st' => Inserts.of_setOwner

theorem listAppendAfter_none_inserts :
    Yields (fun _ => False) (Inserts st l [] x ns) (listAppendAfter l none x st) := by
  have hli := hl.list
  have hlen := hl.length
  have hh := hl.head
  cases ns with
  | nil =>
    have ha := listAppend_inserts_setOwner hl hx hnew
    simpa [listAppendAfter,hx,hli,hlen] using ha
  | cons first B =>
    have hf := hl.node first (by simp)
    simp [listAppendAfter,hx,hli,hlen,hh,hf]
    exact .ok ⟨relinks_intro,rfl,rfl,by simp [hlen]⟩

theorem listAppendBefore_none_inserts :
    Yields (fun _ => False) (Inserts st l ns x []) (listAppendBefore l none x st) := by
  have hli := hl.list
  have hlen := hl.length
  have ht := hl.tail
  rcases eq_nil_or_concat' ns with rfl | ⟨A,last,rfl⟩
  · have ha := listAppend_inserts_setOwner hl hx hnew
    simpa [listAppendBefore,hx,hli,hlen] using ha
  have hla := hl.node last (by simp)
  simp [listAppendBefore,hx,hli,hlen,ht,hla]
  exact .ok ⟨relinks_intro,rfl,rfl,by simp [hlen]⟩
end Operations

section Between
variable (hl : IsList st l (A ++ y :: B)) (hx : st.node x = true) (hnew : x ∉ A ++ y :: B)

include hl hx hnew

/-- At the end of the list `list_append_after` leaves the node's `next` as it is. -/
theorem listAppendAfter_some_inserts (hd : st.next x=none) :
    Yields (fun _ => False) (Inserts st l (A++[y]) x B) (listAppendAfter l (some y) x st) := by
  have hli := hl.list
  have hlen := hl.length
  have ht := hl.tail
  have hn := hl.next_mem
  have hy := hl.node y (by simp)
  cases B with
  | nil =>
    simp [listAppendAfter,hx,hli,hlen,ht,hy]
    refine .ok ⟨relinks_intro fun n => ?_,rfl,rfl,by simp [hlen]⟩
    grind [Heap.nextOf,Heap.prevOf]
  | cons z B =>
    have hz := hl.node z (by simp)
    have hla : some y≠st.tail l := by
      rw [ht,getLast?_append_of_ne_nil _ (by simp)]
      exact ne_getLast? (A := z::B) (mt (mem_append_right A) (nodup_middle.1 hl.nodup).notMem)
    simp [listAppendAfter,hx,hli,hlen,hy,hla,hn,hz]
    refine .ok ⟨relinks_intro (by simp [Heap.nextOf,update_apply]) fun n => ?_,rfl,rfl,
      by simp [hlen]⟩
    grind [Heap.nextOf,Heap.prevOf]

/-- At the start of the list `list_append_before` leaves the node's `prev` as it is. -/
theorem listAppendBefore_some_inserts (hd : st.prev x=none) :
    Yields (fun _ => False) (Inserts st l A x (y::B)) (listAppendBefore l (some y) x st) := by
  have hli := hl.list
  have hlen := hl.length
  have hh := hl.head
  have hp := hl.prev_mem
  have hy := hl.node y (by simp)
  rcases eq_nil_or_concat' A with rfl | ⟨A,z,rfl⟩
  · simp [listAppendBefore,hx,hli,hlen,hh,hy]
    refine .ok ⟨relinks_intro (by simp [Heap.nextOf,update_apply]) fun n => ?_,rfl,rfl,
      by simp [hlen]⟩
    grind [Heap.nextOf,Heap.prevOf]
  have hz := hl.node z (by simp)
  have hf : some y≠st.head l := by
    rw [hh,head?_append_of_ne_nil _ (by simp)]
    exact ne_head? (mt (mem_append_left B) (nodup_middle.1 hl.nodup).notMem)
  simp [listAppendBefore,hx,hli,hlen,hy,hf,hp,hz]
  refine .ok ⟨relinks_intro fun n => ?_,rfl,rfl,by simp [hlen]⟩
  grind [Heap.nextOf,Heap.prevOf]
end Between

theorem listDelete_deletes (hl : IsList st l (A++x::B)) :
    Yields (fun _ => False) (Deletes st l A x B) (listDelete l (some x) st) := by
  have hli := hl.list
  have hlen := hl.length
  have hn := hl.next_mem
  have hp := hl.prev_mem
  have hx := hl.node x (by simp)
  have hmem := (nodup_middle.1 hl.nodup).notMem
  have hf := hl.eq_head_iff
  have hla := hl.eq_tail_iff
  rcases eq_nil_or_concat' A with rfl | ⟨A,y,rfl⟩
  · cases B with
    | nil =>
      simp [listDelete,hx,hli,hf,hla,hn,hp]
      exact .ok ⟨relinks_intro,rfl,rfl,by simp [hlen]⟩
    | cons z B =>
      have hz := hl.node z (by simp)
      simp [listDelete,hx,hli,hf,hla,hn,hp,hz]
      exact .ok ⟨relinks_intro,rfl,rfl,by simp [hlen]⟩
  · have hy := hl.node y (by simp)
    have hxy : x≠y := fun heq => hmem (by simp [heq])
    cases B with
    | nil =>
      simp [listDelete,hx,hli,hf,hla,hn,hp,hy,hxy]
      exact .ok ⟨relinks_intro,rfl,rfl,by simp [hlen]⟩
    | cons z B =>
      have hz := hl.node z (by simp)
      simp [listDelete,hx,hli,hf,hla,hn,hp,hy,hxy,hz]
      exact .ok ⟨relinks_intro,rfl,rfl,by simp [hlen]⟩

structure Merges (st : Heap) (t : Nat) (T : List Nat) (s : Nat) (S : List Nat) (st' : Heap) : Prop
    extends Relinks st t (fun q => if q=T.getLast? then S.head? else st.nextOf t q)
      (fun q => if q=S.head? then T.getLast? else if q=none then st.tail s else st.prevOf t q) st'
    where
  list : st'.list=update st.list s false
  owner : ∀ n, st'.owner n=if n∈S then some t else st.owner n
  length : st'.length=update st.length t (st.length t + st.length s)

private theorem Merges.isList (h : Merges st t T s S st') (ht : IsList st t T) (hs : IsList st s S)
    (hne : t≠s) : IsList st' t (T++S) := by
  have hd : ∀ n∈T, n∉S := by
    intro n hT hS
    exact hne (Option.some.inj ((ht.owner n hT).symm.trans (hs.owner n hS)))
  constructor
  case list => rw [h.list,update_of_ne hne,ht.list]
  case forward =>
    apply ht.forward.append hs.forward
    · rw [h.nextOf,if_pos rfl]
      exact hs.head.symm
    · intro r _ hr
      rw [h.nextOf,if_neg hr]
    intro n hn
    rw [h.nextOf,if_neg (ne_getLast? fun hT => hd n hT hn)]
    rfl
  case backward =>
    rw [reverse_append]
    apply hs.backward.append ht.backward
    · rw [h.prevOf,getLast?_reverse,if_pos rfl]
      exact ht.tail.symm
    · intro r _ hr
      rw [getLast?_reverse] at hr
      rw [h.prevOf,if_neg hr]
      cases r with
      | none => rw [if_pos rfl]; rfl
      | some n => rw [if_neg (by simp)]; rfl
    · intro n hn
      rw [h.prevOf,if_neg (ne_head? (hd n (mem_reverse.1 hn))),if_neg (by simp)]
  case length =>
    rw [h.length,update_self,ht.length,hs.length,length_append]
  case node =>
    intro n hn
    rw [h.node]
    exact (mem_append.1 hn).elim (ht.node n) (hs.node n)
  case owner =>
    intro n hn
    rw [h.owner]
    by_cases hS : n∈S
    · rw [if_pos hS]
    · rw [if_neg hS]
      exact ht.owner n ((mem_append.1 hn).resolve_right hS)

theorem Merges.shape (h : Merges st t T s S st') (hst : Shape st lists) (ht : lists t=some T)
    (hs : lists s=some S) (hne : t≠s) :
    Shape st' (update (update lists s none) t (some (T++S))) := by
  have hT := hst.isList t T ht
  have hS := hst.isList s S hs
  -- the nodes of both lists apart, nothing moves
  have ho : ∀ n, n∉T → n∉S →
      st'.next n=st.next n ∧ st'.prev n=st.prev n ∧ st'.owner n=st.owner n := by
    intro n hnT hnS
    have hnex := h.nextOf (some n)
    have hp := h.prevOf (some n)
    rw [if_neg (ne_getLast? hnT)] at hnex
    rw [if_neg (ne_head? hnS)] at hp
    exact ⟨hnex,hp,by rw [h.owner,if_neg hnS]⟩
  constructor
  case isList =>
    intro l' ns hns
    by_cases hl' : l' = t
    · subst hl'
      rw [update_self] at hns
      cases hns
      exact h.isList hT hS hne
    rw [update_of_ne hl'] at hns
    have hls : l' ≠ s := by
      rintro rfl
      rw [update_self] at hns
      cases hns
    rw [update_of_ne hls] at hns
    have hli := hst.isList l' ns hns
    apply hli.congr _ (h.head l' hl') (h.tail l' hl') _
    · intro n hn
      have how := hli.owner n hn
      have hsa := ho n (fun hmem => hl' (Option.some.inj (how.symm.trans (hT.owner n hmem))))
        (fun hmem => hls (Option.some.inj (how.symm.trans (hS.owner n hmem))))
      exact ⟨hsa.1,hsa.2.1,hsa.2.2,by rw [h.node]⟩
    · rw [h.list,update_of_ne hls]
    · rw [h.length,update_of_ne hl']
  case inUse =>
    intro l' hl'
    rw [h.list] at hl'
    by_cases hls : l' = s
    · rw [hls,update_self] at hl'
      cases hl'
    rw [update_of_ne hls] at hl'
    by_cases hlt : l' = t
    · exact ⟨T++S,by rw [hlt,update_self]⟩
    · rw [update_of_ne hlt,update_of_ne hls]
      exact hst.inUse l' hl'
  case owned =>
    intro n l' hn how
    rw [h.node] at hn
    rw [h.owner] at how
    by_cases hnS : n∈S
    · rw [if_pos hnS] at how
      cases how
      exact ⟨T++S,update_self ..,mem_append_right _ hnS⟩
    rw [if_neg hnS] at how
    obtain ⟨ns,hns,hmem⟩ := hst.owned n l' hn how
    by_cases hlt : l' = t
    · rw [hlt,ht] at hns
      cases hns
      exact ⟨T++S,by rw [hlt,update_self],mem_append_left _ hmem⟩
    have hls : l' ≠ s := by
      rintro rfl
      exact hnS (hst.mem_of_owner hs hn how)
    exact ⟨ns,by rw [update_of_ne hlt,update_of_ne hls,hns],hmem⟩
  case detached =>
    intro n hn how
    rw [h.node] at hn
    rw [h.owner] at how
    by_cases hnS : n∈S
    · rw [if_pos hnS] at how
      cases how
    rw [if_neg hnS] at how
    have hnT : n∉T := by
      intro hmem
      rw [hT.owner n hmem] at how
      cases how
    rw [(ho n hnT hnS).1,(ho n hnT hnS).2.1]
    exact hst.detached n hn how

theorem ownLoop_eq (hli : LinkedFrom (st.nextOf l) p S) (hno : ∀ n∈S, st.node n=true)
    (hf : S.length<fuel) : ownLoop t fuel (st.nextOf l p) st =
      .ok { st with owner := fun n => if n∈S then some t else st.owner n } := by
  induction S generalizing p fuel st with
  | nil =>
    obtain ⟨fuel,rfl⟩ := Nat.exists_eq_add_one.2 hf
    rw [hli.next_eq]
    simp [ownLoop]
  | cons x S ih =>
    obtain _ | fuel := fuel
    · omega
    have hx := hno x mem_cons_self
    have hr : LinkedFrom ((st.setOwner x (some t)).nextOf l) (some x) S :=
      hli.2.congr rfl fun _ _ => rfl
    have hlo := ih hr (fun n hn => hno n (mem_cons_of_mem x hn)) (Nat.lt_of_succ_lt_succ hf)
    rw [hli.1,ownLoop]
    simp only [Heap.deref,hx]
    refine hlo.trans ?_
    congr 2
    funext n
    by_cases hnx : n=x
    · simp [hnx]
    · simp [hnx]

theorem listMerge_merges (ht : IsList st t T) (hs : IsList st s S) (hfu : S.length<fuel) :
    Yields (fun _ => False) (Merges st t T s S) (listMerge fuel t s st) := by
  have ho := ownLoop_eq (t := t) hs.forward hs.node hfu
  have hlo : ownLoop t fuel (st.head s) st =
      .ok { st with owner := fun n => if n∈S then some t else st.owner n } := ho
  have htl := ht.list
  have hsl := hs.list
  have hh := hs.head
  have hta := ht.tail
  rw [listMerge]
  simp only [Heap.derefList,hsl,ok_bind,hlo,htl]
  rcases eq_nil_or_concat' T with rfl | ⟨T,last,rfl⟩
  · cases S with
    | nil =>
      have hst := hs.tail
      simp [hh,hta,hst]
      exact .ok ⟨relinks_intro,rfl,by simp,rfl⟩
    | cons first S =>
      have hf := hs.node first (by simp)
      have hst := hs.tail
      rw [getLast?_eq_some_getLast (by simp)] at hst
      simp [hh,hta,hst,hf]
      exact .ok ⟨relinks_intro,rfl,by simp,rfl⟩
  · have hla := ht.node last (by simp)
    cases S with
    | nil =>
      have hst := hs.tail
      simp [hh,hta,hst,hla]
      exact .ok ⟨relinks_intro,rfl,by simp,rfl⟩
    | cons first S =>
      have hf := hs.node first (by simp)
      have hst := hs.tail
      rw [getLast?_eq_some_getLast (by simp)] at hst
      simp [hh,hta,hst,hf,hla]
      exact .ok ⟨relinks_intro,rfl,by simp,rfl⟩
end RazionOS.Kernel.LinkedList
