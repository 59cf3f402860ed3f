import Mathlib.Algebra.Order.Ring.Int
import RazionOS.Kernel.Misc.LinkedListShape

/-! # Runs of list operations -/

namespace RazionOS.Kernel.LinkedList
open Framework Function List Nat

variable {st st' : Heap} {ns A B : List Nat}

inductive Call where
  | node (new value : Nat)
  | free (node : Nat)
  | create (new : Nat)
  | append (list node : Nat)
  | insert (list item new : Nat)
  | appendAfter (list : Nat) (before : Ptr) (node : Nat)
  | insertAfter (list : Nat) (before : Ptr) (item new : Nat)
  | appendBefore (list : Nat) (after : Ptr) (node : Nat)
  | insertBefore (list : Nat) (after : Ptr) (item new : Nat)
  | find (list value : Nat)
  | indexOf (list value : Nat)
  | delete (list node : Nat)
  | remove (list index : Nat)
  | pop (list : Nat)
  | dequeue (list : Nat)
  | copy (list new : Nat) (alloc : Nat → Nat)
  | merge (target source : Nat)

inductive Out where
  | unit
  | ptr (p : Ptr)
  | int (i : Int)
deriving DecidableEq

def step (fuel : Nat) (call : Call) (st : Heap) : Except Fault (Out × Heap) :=
  match call with
  | .node new value => .ok (.unit, st.newNode new value)
  | .free node => .ok (.unit, { st with node := update st.node node false })
  | .create new => .ok (.ptr (some new), listCreate new st)
  | .append list node => (listAppend list node st).map (.unit, ·)
  | .insert list item new => (listInsert list item new st).map (.ptr (some new), ·)
  | .appendAfter list before node => (listAppendAfter list before node st).map (.unit, ·)
  | .insertAfter list before item new =>
    (listInsertAfter list before item new st).map (.ptr (some new), ·)
  | .appendBefore list after node => (listAppendBefore list after node st).map (.unit, ·)
  | .insertBefore list after item new =>
    (listInsertBefore list after item new st).map (.ptr (some new), ·)
  | .find list value => (listFind fuel list value st).map (.ptr ·, st)
  | .indexOf list value => (listIndexOf fuel list value st).map (.int ·.toInt, st)
  | .delete list node => (listDelete list (some node) st).map (.unit, ·)
  | .remove list index => (listRemove list index st).map (.unit, ·)
  | .pop list => (listPop list st).map fun r => (.ptr r.1, r.2)
  | .dequeue list => (listDequeue list st).map fun r => (.ptr r.1, r.2)
  | .copy list new alloc => (listCopy fuel list new alloc st).map (.ptr (some new), ·)
  | .merge target source => (listMerge fuel target source st).map (.unit, ·)

def Returns (call : Call) (st : Heap) (r : Out × Heap) : Prop :=
  ∃ rounds, ∀ fuel ≥ rounds, step fuel call st = .ok r

/-- The sequences of nodes that lists stand for, and the values of nodes. -/
structure Seqs where
  lists : Nat → Option (List Nat)
  value : Nat → Nat

namespace Seqs

def seq (m : Seqs) (list : Nat) : List Nat := (m.lists list).getD []

def set (m : Seqs) (list : Nat) (ns : List Nat) : Seqs :=
  { m with lists := update m.lists list (some ns) }

def setValue (m : Seqs) (node value : Nat) : Seqs :=
  { m with value := update m.value node value }
end Seqs

def placeAfter (x : Nat) (before : Ptr) (ns : List Nat) : List Nat :=
  match before with
  | none => x::ns
  | some y => ns.flatMap fun n => if n=y then [y, x] else [n]

def placeBefore (x : Nat) (after : Ptr) (ns : List Nat) : List Nat :=
  match after with
  | none => ns++[x]
  | some y => ns.flatMap fun n => if n=y then [x, y] else [n]

def specStep (call : Call) (m : Seqs) : Out × Seqs :=
  match call with
  | .node new value => (.unit, m.setValue new value)
  | .free _ => (.unit, m)
  | .create new => (.ptr (some new), m.set new [])
  | .append list node => (.unit, m.set list (m.seq list++[node]))
  | .insert list item new =>
    (.ptr (some new), (m.setValue new item).set list (m.seq list++[new]))
  | .appendAfter list before node => (.unit, m.set list (placeAfter node before (m.seq list)))
  | .insertAfter list before item new =>
    (.ptr (some new), (m.setValue new item).set list (placeAfter new before (m.seq list)))
  | .appendBefore list after node => (.unit, m.set list (placeBefore node after (m.seq list)))
  | .insertBefore list after item new =>
    (.ptr (some new), (m.setValue new item).set list (placeBefore new after (m.seq list)))
  | .find list value => (.ptr ((m.seq list).find? (m.value · = value)), m)
  | .indexOf list value =>
    match (m.seq list).findIdx? (m.value · = value) with
    | some i => (.int i, m)
    | none => (.int (-1), m)
  | .delete list node => (.unit, m.set list ((m.seq list).erase node))
  | .remove list index => (.unit, m.set list ((m.seq list).eraseIdx index))
  | .pop list => (.ptr (m.seq list).getLast?, m.set list (m.seq list).dropLast)
  | .dequeue list => (.ptr (m.seq list).head?, m.set list (m.seq list).tail)
  | .copy list new alloc =>
    let nodes := (range (m.seq list).length).map alloc
    let copies := nodes.zip ((m.seq list).map m.value)
    (.ptr (some new), (copies.foldl (fun m copy => m.setValue copy.1 copy.2) m).set new nodes)
  | .merge target source =>
    let rest := { m with lists := update m.lists source none }
    (.unit, rest.set target (m.seq target++m.seq source))

def Detached (st : Heap) (n : Nat) : Prop := st.node n=true ∧ st.owner n=none

def Within (st : Heap) (l : Nat) (p : Ptr) : Prop :=
  ∀ n, p=some n → st.node n=true ∧ st.owner n=some l

/-- Lists are in use, nodes are where they should be, and `malloc` returns what is not in use. -/
def Valid (call : Call) (st : Heap) : Prop :=
  match call with
  | .node new _ => st.node new=false
  | .free node => Detached st node
  | .create new => st.list new=false
  | .append list node => st.list list=true ∧ Detached st node
  | .insert list _ new => st.list list=true ∧ st.node new=false
  | .appendAfter list before node => st.list list=true ∧ Within st list before ∧ Detached st node
  | .insertAfter list before _ new =>
    st.list list=true ∧ Within st list before ∧ st.node new=false
  | .appendBefore list after node => st.list list=true ∧ Within st list after ∧ Detached st node
  | .insertBefore list after _ new =>
    st.list list=true ∧ Within st list after ∧ st.node new=false
  | .find list _ => st.list list=true
  | .indexOf list _ => st.list list=true
  | .delete list node => Within st list (some node)
  | .remove list _ => st.list list=true
  | .pop list => st.list list=true
  | .dequeue list => st.list list=true
  | .copy list new alloc =>
    st.list list=true ∧ st.list new=false ∧ (∀ i, st.node (alloc i)=false) ∧ alloc.Injective
  | .merge target source => st.list target=true ∧ st.list source=true ∧ target≠source

/-- No copy of a list that is not empty, no removal at the index after the last, and no count past
the largest `int`. -/
def Plain (call : Call) (st : Heap) : Prop :=
  match call with
  | .copy list _ _ => st.length list=0
  | .remove list index => index≠st.length list
  | .indexOf list _ => st.length list≤2^31
  | _ => True

private theorem Shape.newNode (hst : Shape st lists) (value : Nat) (hnew : st.node new=false) :
    Shape (st.newNode new value) lists := by
  have hne : ∀ n, st.node n=true → n≠new := by
    rintro n hn rfl
    rw [hnew] at hn
    cases hn
  constructor
  case isList =>
    intro l ns hns
    have hli := hst.isList l ns hns
    refine hli.congr rfl rfl rfl rfl fun n hn => ?_
    have hn' := hne n (hli.node n hn)
    simp [hn']
  case inUse => exact hst.inUse
  case owned =>
    intro n l hn ho
    by_cases hn' : n=new
    · simp [hn'] at ho
    · simp only [Heap.newNode,update_of_ne hn'] at hn ho
      exact hst.owned n l hn ho
  case detached =>
    intro n hn ho
    by_cases hn' : n=new
    · simp [hn']
    · simp only [Heap.newNode,update_of_ne hn'] at hn ho ⊢
      exact hst.detached n hn ho

private theorem Shape.free (hst : Shape st lists) (hn : Detached st n) :
    Shape { st with node := update st.node n false } lists := by
  constructor
  case isList =>
    intro l ns hns
    have hli := hst.isList l ns hns
    refine hli.congr rfl rfl rfl rfl fun n' hn' => ⟨rfl,rfl,rfl,?_⟩
    apply update_of_ne
    rintro rfl
    have ho := hli.owner n' hn'
    rw [hn.2] at ho
    cases ho
  case inUse => exact hst.inUse
  case owned =>
    intro n' l hn' ho
    by_cases heq : n' = n
    · simp [heq] at hn'
    · simp only [update_of_ne heq] at hn'
      exact hst.owned n' l hn' ho
  case detached =>
    intro n' hn' ho
    by_cases heq : n' = n
    · simp [heq] at hn'
    · simp only [update_of_ne heq] at hn'
      exact hst.detached n' hn' ho

theorem Shape.create (hst : Shape st lists) (hnew : st.list new=false) :
    Shape (listCreate new st) (update lists new (some [])) := by
  have hne : ∀ l ns, lists l=some ns → l≠new := by
    rintro l ns hns rfl
    have hli := (hst.isList l ns hns).list
    rw [hnew] at hli
    cases hli
  constructor
  case isList =>
    intro l ns hns
    by_cases hl : l=new
    · subst hl
      rw [update_self] at hns
      cases hns
      constructor
      case forward => exact update_self ..
      case backward => exact update_self ..
      all_goals simp [listCreate]
    · rw [update_of_ne hl] at hns
      apply (hst.isList l ns hns).congr
      case hns => exact fun n _ => ⟨rfl,rfl,rfl,rfl⟩
      all_goals exact update_of_ne hl ..
  case inUse =>
    intro l hl
    by_cases heq : l=new
    · exact ⟨[],by rw [heq,update_self]⟩
    simp only [listCreate,update_of_ne heq] at hl
    rw [update_of_ne heq]
    exact hst.inUse l hl
  case owned =>
    intro n l hn ho
    obtain ⟨ns,hns,hmem⟩ := hst.owned n l hn ho
    exact ⟨ns,by rw [update_of_ne (hne l ns hns),hns],hmem⟩
  case detached => exact hst.detached

section Loops
variable (hlink : LinkedFrom (st.nextOf l) p ns) (hnode : ∀ n ∈ ns, st.node n = true)

include hlink hnode

private theorem findLoop_eq (value : Nat) (hf : ns.length<fuel) :
    findLoop value st fuel (st.nextOf l p) = .ok (ns.find? (st.value · = value)) := by
  induction ns generalizing p fuel with
  | nil =>
    obtain ⟨fuel,rfl⟩ := exists_eq_add_one.2 hf
    rw [hlink.next_eq]
    rfl
  | cons x ns ih =>
    obtain _ | fuel := fuel
    · omega
    have hx := hnode x mem_cons_self
    have hlo := ih hlink.2 (fun n hn => hnode n (mem_cons_of_mem x hn)) (lt_of_succ_lt_succ hf)
    rw [hlink.1,findLoop]
    simp only [Heap.deref,hx,if_true,ok_bind]
    by_cases hv : st.value x=value
    · simp [hv]
    · rw [if_neg hv,find?_cons_of_neg (by simpa using hv)]
      exact hlo

private theorem indexOfLoop_eq (value : Nat) (hf : ns.length<fuel) :
    indexOfLoop value st fuel i (st.nextOf l p) =
      .ok (((ns.findIdx? (st.value · = value)).map fun k => i + BitVec.ofNat 32 k).getD (-1)) := by
  induction ns generalizing p fuel i with
  | nil =>
    obtain ⟨fuel,rfl⟩ := exists_eq_add_one.2 hf
    rw [hlink.next_eq]
    rfl
  | cons x ns ih =>
    obtain _ | fuel := fuel
    · omega
    have hx := hnode x mem_cons_self
    have hlo := ih hlink.2 (fun n hn => hnode n (mem_cons_of_mem x hn)) (i := i+1)
      (lt_of_succ_lt_succ hf)
    rw [hlink.1,indexOfLoop]
    simp only [Heap.deref,hx,if_true,ok_bind]
    by_cases hv : st.value x=value
    · simp [hv,findIdx?_cons]
    rw [if_neg hv]
    refine hlo.trans ?_
    have hc : ∀ k, i+1 + BitVec.ofNat 32 k=i + BitVec.ofNat 32 (k+1) := by
      intro k
      rw [BitVec.add_assoc,BitVec.ofNat_add,BitVec.add_comm 1]
      rfl
    simp only [hc]
    simp [findIdx?_cons,hv,comp_def]

private theorem walk_eq (hi : index≤ns.length) :
    walk st index (st.nextOf l p) = .ok (ns.drop index).head? := by
  induction index generalizing p ns with
  | zero => rw [walk,hlink.next_eq,drop_zero]
  | succ index ih =>
    cases ns with
    | nil => cases hi
    | cons x ns =>
      have hx := hnode x mem_cons_self
      have hr := ih hlink.2 (fun n hn => hnode n (mem_cons_of_mem x hn)) (le_of_succ_le_succ hi)
      rw [hlink.1,walk]
      simp only [Heap.deref,hx]
      exact hr
end Loops

structure Refines (st : Heap) (m : Seqs) : Prop where
  shape : Shape st m.lists
  value : st.value=m.value

section
variable (h : Refines st m) (hl : st.list l=true)
include h hl

theorem Refines.lists_eq : m.lists l=some (m.seq l) := by
  obtain ⟨ns,hns⟩ := h.shape.inUse l hl
  rw [Seqs.seq,hns,Option.getD_some]

theorem Refines.isList : IsList st l (m.seq l) := h.shape.isList l _ (h.lists_eq hl)

theorem Refines.not_mem (hx : Detached st x) : x∉m.seq l := by
  intro hmem
  have ho := (h.isList hl).owner x hmem
  rw [hx.2] at ho
  cases ho

end

theorem Refines.split (h : Refines st m) (hx : Within st l (some x)) :
    st.list l=true ∧ ∃ A B, m.seq l=A++x::B := by
  obtain ⟨hnode,ho⟩ := hx x rfl
  obtain ⟨ns,hns,hmem⟩ := h.shape.owned x l hnode ho
  have hl := (h.shape.isList l ns hns).list
  rw [h.lists_eq hl] at hns
  rw [← Option.some.inj hns] at hmem
  exact ⟨hl,append_of_mem hmem⟩

theorem Refines.newNode (h : Refines st m) (value : Nat) (hn : st.node new=false) :
    Refines (st.newNode new value) (m.setValue new value) where
  shape := h.shape.newNode value hn
  value := by rw [Heap.newNode,Seqs.setValue,h.value]

theorem detached_newNode (st : Heap) (new value : Nat) : Detached (st.newNode new value) new := by
  simp [Detached]

private theorem within_newNode (hp : Within st l p) (hnew : st.node new=false) :
    Within (st.newNode new value) l p := by
  intro n hn
  obtain ⟨hnode,ho⟩ := hp n hn
  have hne : n≠new := by
    rintro rfl
    rw [hnew] at hnode
    cases hnode
  simp [hne,hnode,ho]

abbrev Agrees (r : Out × Seqs) (e : Except Fault (Out × Heap)) : Prop :=
  Yields (fun _ => False) (fun r' => r'.1=r.1 ∧ Refines r'.2 r.2) e

theorem Refines.inserts (h : Refines st m) (hl : st.list l=true) (hx : Detached st x)
    (hs : m.seq l=A++B) (he : Yields (fun _ => False) (Inserts st l A x B) e) :
    Agrees (out, m.set l (A++x::B)) (e.map (out, ·)) := by
  apply he.map
  intro st' hi
  have hli := h.lists_eq hl
  rw [hs] at hli
  exact ⟨rfl,hi.shape h.shape hli hx.1 hx.2,hi.value.trans h.value⟩

private theorem append_agrees (h : Refines st m) (hl : st.list l=true) (hx : Detached st x) :
    Agrees (out, m.set l (m.seq l++[x])) ((listAppend l x st).map (out, ·)) :=
  h.inserts hl hx (append_nil _).symm (listAppend_inserts (h.isList hl) hx.1 (h.not_mem hl hx))

private theorem flatMap_of_not_mem (hy : y∉A) : (A.flatMap fun n => if n=y then ys else [n])=A := by
  induction A with
  | nil => rfl
  | cons a A ih =>
    have hay : a≠y := fun heq => hy (heq ▸ mem_cons_self)
    rw [flatMap_cons,if_neg hay,ih fun hmem => hy (mem_cons_of_mem a hmem)]
    rfl

theorem flatMap_middle (hy : y∉A++B) :
    ((A++y::B).flatMap fun n => if n=y then ys else [n])=A++ys++B := by
  rw [mem_append,not_or] at hy
  rw [flatMap_append,flatMap_cons,if_pos rfl,flatMap_of_not_mem hy.1,flatMap_of_not_mem hy.2,
    append_assoc]

section
variable (h : Refines st m)
include h

private theorem appendAfter_agrees (hl : st.list l=true) (hb : Within st l before)
    (hx : Detached st x) : Agrees (out, m.set l (placeAfter x before (m.seq l)))
      ((listAppendAfter l before x st).map (out, ·)) := by
  have hli := h.isList hl
  have hn := h.not_mem hl hx
  cases before with
  | none => exact h.inserts hl hx rfl (listAppendAfter_none_inserts hli hx.1 hn)
  | some y =>
    obtain ⟨-,A,B,hs⟩ := h.split hb
    rw [hs] at hli hn
    have hy := (nodup_middle.1 hli.nodup).notMem
    have hp : placeAfter x (some y) (m.seq l)=A++[y]++x::B := by
      rw [hs,placeAfter,flatMap_middle hy]
      simp
    rw [hp]
    exact h.inserts hl hx (by simp [hs])
      (listAppendAfter_some_inserts hli hx.1 hn (h.shape.detached x hx.1 hx.2).1)

private theorem appendBefore_agrees (hl : st.list l=true) {after : Ptr} (ha : Within st l after)
    (hx : Detached st x) : Agrees (out, m.set l (placeBefore x after (m.seq l)))
      ((listAppendBefore l after x st).map (out, ·)) := by
  have hli := h.isList hl
  have hn := h.not_mem hl hx
  cases after with
  | none =>
    exact h.inserts hl hx (append_nil _).symm (listAppendBefore_none_inserts hli hx.1 hn)
  | some y =>
    obtain ⟨-,A,B,hs⟩ := h.split ha
    rw [hs] at hli hn
    have hy := (nodup_middle.1 hli.nodup).notMem
    have hp : placeBefore x (some y) (m.seq l)=A++x::y::B := by
      rw [hs,placeBefore,flatMap_middle hy]
      simp
    rw [hp]
    exact h.inserts hl hx hs
      (listAppendBefore_some_inserts hli hx.1 hn (h.shape.detached x hx.1 hx.2).2)

theorem Refines.deletes (hl : st.list l=true) (hs : m.seq l=A++x::B) :
    Yields (fun _ => False) (fun st' => Refines st' (m.set l (A++B)))
      (listDelete l (some x) st) := by
  have hlis := h.lists_eq hl
  have hli := h.isList hl
  rw [hs] at hlis hli
  exact (listDelete_deletes hli).mono fun st' hd =>
    ⟨hd.shape h.shape hlis,hd.value.trans h.value⟩

private theorem delete_agrees (hx : Within st l (some x)) :
    Agrees (.unit, m.set l ((m.seq l).erase x)) ((listDelete l (some x) st).map (.unit, ·)) := by
  obtain ⟨hl,A,B,hs⟩ := h.split hx
  have hnd := (h.isList hl).nodup
  rw [hs] at hnd
  have hA : x∉A := fun hmem => (nodup_middle.1 hnd).notMem (mem_append_left _ hmem)
  have he : (m.seq l).erase x=A++B := by
    rw [hs,erase_append_right _ hA,erase_cons_head]
  rw [he]
  exact (h.deletes hl hs).map fun st' hst' => ⟨rfl,hst'⟩

section
variable (hl : st.list l = true)
include hl

theorem Refines.set_seq : Refines st (m.set l (m.seq l)) := by
  have hs : m.set l (m.seq l)=m := by
    rw [Seqs.set,← h.lists_eq hl,update_eq_self]
  rwa [hs]

/-- An index past the end changes nothing; the index at the end is where `list_delete` is called
with `NULL`. -/
theorem remove_agrees (hi : index≠st.length l) : Agrees (.unit, m.set l ((m.seq l).eraseIdx index))
      ((listRemove l index st).map (.unit, ·)) := by
  have hli := h.isList hl
  rw [hli.length] at hi
  by_cases hlt : (m.seq l).length < index
  · have hr : listRemove l index st = .ok st := by
      simp [listRemove,hl,hli.length,hlt]
    rw [hr,eraseIdx_of_length_le (by omega)]
    exact .ok ⟨rfl,h.set_seq hl⟩
  have hi' : index<(m.seq l).length := by omega
  have hs : m.seq l=(m.seq l).take index++(m.seq l)[index]::(m.seq l).drop (index+1) := by
    rw [← drop_eq_getElem_cons,take_append_drop]
  have hw : walk st index (st.head l) = .ok (some (m.seq l)[index]) := by
    have hd := walk_eq hli.forward hli.node (Nat.le_of_lt hi')
    rw [drop_eq_getElem_cons] at hd
    exact hd
  have hr : listRemove l index st=listDelete l (some (m.seq l)[index]) st := by
    simp [listRemove,hl,hli.length,hlt,hw]
  rw [hr,eraseIdx_eq_take_drop_succ]
  exact (h.deletes hl hs).map fun st' hst' => ⟨rfl,hst'⟩

theorem Refines.takes (hs : m.seq l=A++x::B) : Agrees (.ptr (some x), m.set l (A++B))
      (((listDelete l (some x) st).map (some x, ·)).map fun r => (.ptr r.1, r.2)) := by
  have hd : Yields (fun _ => False)
      (fun r : Ptr × Heap => r.1=some x ∧ Refines r.2 _)
      ((listDelete l (some x) st).map (some x, ·)) :=
    (h.deletes hl hs).map fun st' hst' => ⟨rfl,hst'⟩
  exact hd.map fun r hr => ⟨congrArg Out.ptr hr.1,hr.2⟩

private theorem pop_agrees : Agrees (.ptr (m.seq l).getLast?, m.set l (m.seq l).dropLast)
      ((listPop l st).map fun r => (.ptr r.1, r.2)) := by
  have ht := (h.isList hl).tail
  rcases eq_nil_or_concat' (m.seq l) with hs | ⟨A,last,hs⟩
  · have hse := h.set_seq hl
    rw [hs] at ht hse
    have hr : listPop l st = .ok (none, st) := by
      simp [listPop,hl,ht]
    rw [hr,hs]
    exact .ok ⟨rfl,hse⟩
  · rw [hs,getLast?_concat] at ht
    have hr : listPop l st=(listDelete l (some last) st).map (some last, ·) := by
      simp only [listPop,Heap.derefList,hl,ht]
      rfl
    have hta := h.takes hl hs
    rw [append_nil] at hta
    rwa [hr,hs,getLast?_concat,dropLast_concat]

private theorem dequeue_agrees : Agrees (.ptr (m.seq l).head?, m.set l (m.seq l).tail)
      ((listDequeue l st).map fun r => (.ptr r.1, r.2)) := by
  have hh := (h.isList hl).head
  cases hs : m.seq l with
  | nil =>
    have hse := h.set_seq hl
    rw [hs] at hh hse
    have hr : listDequeue l st = .ok (none, st) := by
      simp [listDequeue,hl,hh]
    rw [hr]
    exact .ok ⟨rfl,hse⟩
  | cons first B =>
    rw [hs] at hh
    have hr : listDequeue l st=(listDelete l (some first) st).map (some first, ·) := by
      simp only [listDequeue,Heap.derefList,hl,hh]
      rfl
    have ht : Agrees (.ptr (some first), m.set l ([]++B)) _ := h.takes hl hs
    rw [hr]
    exact ht

theorem find_agrees (hf : st.length l<fuel) :
    listFind fuel l value st = .ok ((m.seq l).find? (m.value · = value)) := by
  have hli := h.isList hl
  rw [hli.length] at hf
  have hlo := findLoop_eq hli.forward hli.node value hf
  rw [h.value] at hlo
  simp only [listFind,Heap.derefList,hl]
  exact hlo

theorem indexOf_agrees (value : Nat) (hf : st.length l<fuel) (hi : st.length l≤2^31) :
    (listIndexOf fuel l value st).map (Out.int ·.toInt, st) =
      .ok ((specStep (.indexOf l value) m).1, st) := by
  have hli := h.isList hl
  rw [hli.length] at hf hi
  have hlo := indexOfLoop_eq hli.forward hli.node value (i := 0) hf
  rw [h.value] at hlo
  have hr : listIndexOf fuel l value st = .ok (((m.seq l).findIdx? (m.value · = value)).map
        (fun k => 0 + BitVec.ofNat 32 k) |>.getD (-1)) := by
    simp only [listIndexOf,Heap.derefList,hl]
    exact hlo
  rw [hr,specStep]
  cases hfi : (m.seq l).findIdx? (m.value · = value) with
  | none => rfl
  | some k =>
    have hk := (findIdx?_eq_some_iff_getElem.1 hfi).1
    have hc : (0 + BitVec.ofNat 32 k).toInt=k := by
      have hz : 0 + BitVec.ofNat 32 k=BitVec.ofNat 32 k := BitVec.zero_add _
      rw [hz,BitVec.toInt_eq_toNat_of_lt]
      · rw [BitVec.toNat_ofNat,mod_eq_of_lt (by omega)]
      · rw [BitVec.toNat_ofNat]
        omega
    simp only [Except.map,Option.map_some,Option.getD_some,hc]

theorem listCopy_empty (hn : st.list new=false) (he : m.seq l=[]) (hf : 0<fuel) :
    listCopy fuel l new alloc st = .ok (listCreate new st) := by
  have hne : l≠new := by
    rintro rfl
    rw [hn] at hl
    cases hl
  have hh := (h.isList hl).head
  rw [he] at hh
  obtain ⟨fuel,rfl⟩ := exists_eq_add_one.2 hf
  simp [listCopy,listCreate,hl,hne,hh,copyLoop]

theorem Refines.seq_eq_nil (he : st.length l=0) : m.seq l=[] :=
  eq_nil_of_length_eq_zero ((h.isList hl).length.symm.trans he)

private theorem copy_agrees (hn : st.list new=false) (he : st.length l=0) (hf : 0<fuel) :
    Agrees (specStep (.copy l new alloc) m)
      ((listCopy fuel l new alloc st).map (.ptr (some new), ·)) := by
  have hs := h.seq_eq_nil hl he
  rw [listCopy_empty h hl hn hs hf,specStep,hs]
  exact .ok ⟨rfl,h.shape.create hn,h.value⟩

end

private theorem merge_agrees (ht : st.list target=true) (hs : st.list source=true)
    (hne : target≠source) (hf : st.length source<fuel) :
    Agrees (specStep (.merge target source) m)
      ((listMerge fuel target source st).map (.unit, ·)) := by
  have hsr := h.isList hs
  rw [hsr.length] at hf
  apply (listMerge_merges (h.isList ht) hsr hf).map
  intro st' hm
  exact ⟨rfl,hm.shape h.shape (h.lists_eq ht) (h.lists_eq hs) hne,hm.value.trans h.value⟩

end

/-- `list_copy` inserts the value of the first node over and over. -/
theorem copyLoop_noEnd (fuel : Nat) (h : Refines st m) (ho : st.list out=true)
    (hn : st.node n=true) (hf : ∀ j ≥ i, st.node (alloc j)=false) (ha : alloc.Injective) :
    copyLoop out alloc fuel i (some n) st = .error .noEnd := by
  induction fuel generalizing st m i with
  | zero => rfl
  | succ fuel ih =>
    have hnew := hf i (Nat.le_refl i)
    have h1 := h.newNode (st.value n) hnew
    have hd := detached_newNode st (alloc i) (st.value n)
    have hi := listAppend_inserts (h1.isList ho) hd.1 (h1.not_mem ho hd)
    obtain ⟨st',hok,hst'⟩ := hi.exists_ok
    have hli := h1.lists_eq ho
    rw [← append_nil (Seqs.seq _ _)] at hli
    have hs := hst'.shape h1.shape hli hd.1 hd.2
    have h' : Refines st' (((m.setValue (alloc i) (st.value n)).set out _)) :=
      ⟨hs,hst'.value.trans h1.value⟩
    rw [copyLoop]
    simp only [Heap.deref,hn,if_true,ok_bind,listInsert,hok]
    apply ih h'
    · rw [hst'.list]
      exact ho
    · rw [hst'.node]
      by_cases heq : n=alloc i
      · simp [heq]
      · simp [heq,hn]
    · intro j hj
      have hne : alloc j≠alloc i := fun heq => by
        have hij := ha heq
        omega
      rw [hst'.node]
      simp [hne,hf j (by omega)]

private theorem listCopy_noEnd (h : Refines st m) (hvalid : Valid (.copy l new alloc) st)
    (hlen : st.length l≠0) : listCopy fuel l new alloc st = .error .noEnd := by
  obtain ⟨hl,hn,hfr,ha⟩ := hvalid
  have hli := h.isList hl
  have hne : l≠new := by
    rintro rfl
    rw [hn] at hl
    cases hl
  cases hs : m.seq l with
  | nil =>
    rw [hli.length,hs] at hlen
    exact absurd rfl hlen
  | cons first B =>
    have hh := hli.head
    rw [hs] at hh
    have hf := hli.node first (by simp [hs])
    have hc : Refines (listCreate new st) (m.set new []) := ⟨h.shape.create hn,h.value⟩
    have hlo := copyLoop_noEnd (i := 0) fuel hc (update_self ..) hf (fun j _ => hfr j) ha
    simp only [listCopy,Heap.derefList,listCreate,update_of_ne hne,hl,hh]
    exact hlo

def rounds (call : Call) (st : Heap) : Nat :=
  match call with
  | .find list _ => st.length list + 1
  | .indexOf list _ => st.length list + 1
  | .copy _ _ _ => 1
  | .merge _ source => st.length source + 1
  | _ => 0

section
variable {call : Call} (h : Refines st m) (hvalid : Valid call st) (hplain : Plain call st)
include h hvalid hplain

private theorem step_agrees (hf : rounds call st≤fuel) :
    Agrees (specStep call m) (step fuel call st) := by
  cases call with
  | node new value => exact .ok ⟨rfl,h.newNode value hvalid⟩
  | free node => exact .ok ⟨rfl,h.shape.free hvalid,h.value⟩
  | create new => exact .ok ⟨rfl,h.shape.create hvalid,h.value⟩
  | append list node => exact append_agrees h hvalid.1 hvalid.2
  | insert list item new =>
    exact append_agrees (h.newNode item hvalid.2) hvalid.1 (detached_newNode st new item)
  | appendAfter list before node => exact appendAfter_agrees h hvalid.1 hvalid.2.1 hvalid.2.2
  | insertAfter list before item new =>
    exact appendAfter_agrees (h.newNode item hvalid.2.2) hvalid.1
      (within_newNode hvalid.2.1 hvalid.2.2) (detached_newNode st new item)
  | appendBefore list after node => exact appendBefore_agrees h hvalid.1 hvalid.2.1 hvalid.2.2
  | insertBefore list after item new =>
    exact appendBefore_agrees (h.newNode item hvalid.2.2) hvalid.1
      (within_newNode hvalid.2.1 hvalid.2.2) (detached_newNode st new item)
  | find list value =>
    rw [step,find_agrees h hvalid hf]
    exact .ok ⟨rfl,h⟩
  | indexOf list value =>
    have hi := indexOf_agrees h hvalid value hf hplain
    rw [step,hi]
    refine .ok ⟨rfl,?_⟩
    rw [specStep]
    split <;> exact h
  | delete list node => exact delete_agrees h hvalid
  | remove list index => exact remove_agrees h hvalid hplain
  | pop list => exact pop_agrees h hvalid
  | dequeue list => exact dequeue_agrees h hvalid
  | copy list new alloc => exact copy_agrees h hvalid.1 hvalid.2.1 hplain hf
  | merge target source => exact merge_agrees h hvalid.1 hvalid.2.1 hvalid.2.2 hf

private theorem step_stable (hf : rounds call st≤fuel) (hf' : rounds call st≤fuel') :
    step fuel call st=step fuel' call st := by
  cases call with
  | find list value =>
    rw [step,step,find_agrees h hvalid hf,find_agrees h hvalid hf']
  | indexOf list value =>
    rw [step,step,indexOf_agrees h hvalid value hf hplain,indexOf_agrees h hvalid value hf' hplain]
  | copy list new alloc =>
    have hse := h.seq_eq_nil hvalid.1 hplain
    rw [step,step,listCopy_empty h hvalid.1 hvalid.2.1 hse hf,
      listCopy_empty h hvalid.1 hvalid.2.1 hse hf']
  | merge target source =>
    have hs := h.isList hvalid.2.1
    have hr : rounds (.merge target source) st=(m.seq source).length + 1 :=
      congrArg (· + 1) hs.length
    rw [hr] at hf hf'
    have hlo : ownLoop target fuel (st.head source) st=ownLoop target fuel' (st.head source) st :=
      (ownLoop_eq hs.forward hs.node hf).trans (ownLoop_eq hs.forward hs.node hf').symm
    rw [step,step,listMerge,listMerge,hlo]
  | _ => rfl

theorem step_returns :
    ∃ st', Returns call st ((specStep call m).1, st') ∧ Refines st' (specStep call m).2 := by
  obtain ⟨⟨out,st'⟩,hok,ho,hst'⟩ := (step_agrees h hvalid hplain (Nat.le_refl _)).exists_ok
  cases ho
  refine ⟨st',⟨rounds call st,fun fuel hf => ?_⟩,hst'⟩
  rw [step_stable h hvalid hplain hf (Nat.le_refl _),hok]

end

private theorem Returns.unique {call : Call} (h : Returns call st r) (h' : Returns call st r') :
    r=r' := by
  obtain ⟨k,hk⟩ := h
  obtain ⟨k',hk'⟩ := h'
  have hr := hk _ (Nat.le_max_left k k')
  rw [hk' _ (Nat.le_max_right k k')] at hr
  exact (Except.ok.inj hr).symm

inductive Reached : Heap → Seqs → Prop
  | start {st : Heap} (hnode : ∀ n, st.node n=false) (hlist : ∀ l, st.list l=false) :
      Reached st ⟨fun _ => none,st.value⟩
  | step {st st' : Heap} (call : Call) :
      Reached st m → Valid call st → Plain call st → Returns call st (out, st') →
      Reached st' (specStep call m).2

theorem Reached.refines (h : Reached st m) : Refines st m := by
  induction h with
  | @start st hnode hli =>
    refine ⟨⟨nofun,fun l hl => ?_,fun n l hn => ?_,fun n hn => ?_⟩,rfl⟩
    · rw [hli] at hl
      cases hl
    · rw [hnode] at hn
      cases hn
    · rw [hnode] at hn
      cases hn
  | step call _ hvalid hplain hr ih =>
    obtain ⟨st',hr',hst'⟩ := step_returns ih hvalid hplain
    cases hr.unique hr'
    exact hst'

/-- The headers and nodes in use are the lists of the sequences, and a further call returns what it
gives on the sequences. -/
theorem list_refines_sequence (h : Reached st m) : Shape st m.lists ∧ st.value = m.value ∧
      ∀ call, Valid call st → Plain call st →
        ∃ st', Returns call st ((specStep call m).1, st') := by
  refine ⟨h.refines.shape,h.refines.value,fun call hvalid hplain => ?_⟩
  obtain ⟨st',hr,-⟩ := step_returns h.refines hvalid hplain
  exact ⟨st',hr⟩

def noLists : Heap where
  node _ := false
  next _ := none
  prev _ := none
  value _ := 0
  owner _ := none
  list _ := false
  head _ := none
  tail _ := none
  length _ := 0

def oneNode : Heap :=
  match listInsert 0 7 1 (listCreate 0 noLists) with
  | .ok st => st
  | .error _ => noLists

def oneNodeSeqs : Seqs :=
  (specStep (.insert 0 7 1) (specStep (.create 0) ⟨fun _ => none,fun _ => 0⟩).2).2

theorem oneNode_reached : Reached oneNode oneNodeSeqs := by
  have hs := @Reached.start noLists (fun _ => rfl) (fun _ => rfl)
  have hc := hs.step (.create 0) rfl trivial ⟨0,fun _ _ => rfl⟩
  have hi : Returns (.insert 0 7 1) (listCreate 0 noLists) (.ptr (some 1), oneNode) :=
    ⟨0,fun _ _ => rfl⟩
  exact hc.step _ ⟨rfl,rfl⟩ trivial hi

/-- The node with 8 is behind the one with 7. -/
theorem list_refines_sequence_twoNodes : ∃ st m, Reached st m ∧ Shape st m.lists ∧
    (∃ st', Returns (.pop 0) st (.ptr (some 2), st')) ∧
    ∃ st', Returns (.indexOf 0 8) st (.int 1, st') := by
  have hi : Returns (.insert 0 8 2) oneNode (.ptr (some 2), _) := ⟨0,fun _ _ => rfl⟩
  have hr := oneNode_reached.step (.insert 0 8 2) ⟨rfl,rfl⟩ trivial hi
  have h := list_refines_sequence hr
  have hi : 2≤2^31 := by decide
  exact ⟨_,_,hr,h.1,h.2.2 (.pop 0) rfl trivial,h.2.2 (.indexOf 0 8) rfl hi⟩

/-- `list_copy` of one node does not end, and `list_remove` at index 1 reads the node at `NULL`. -/
theorem listCopy_listRemove_oneNode : Valid (.copy 0 1 (· + 2)) oneNode ∧
    (∀ fuel, step fuel (.copy 0 1 (· + 2)) oneNode = .error .noEnd) ∧ Valid (.remove 0 1) oneNode ∧
    ∀ fuel, step fuel (.remove 0 1) oneNode = .error .nullPointer := by
  have hc : Valid (.copy 0 1 (· + 2)) oneNode :=
    ⟨rfl,rfl,fun _ => rfl,fun i j hij => Nat.add_right_cancel hij⟩
  have hne : ∀ fuel, listCopy fuel 0 1 (· + 2) oneNode = .error .noEnd := fun fuel =>
    listCopy_noEnd oneNode_reached.refines hc (by decide)
  refine ⟨hc,fun fuel => ?_,rfl,fun fuel => ?_⟩
  · rw [step,hne]
    rfl
  · rfl
end RazionOS.Kernel.LinkedList
