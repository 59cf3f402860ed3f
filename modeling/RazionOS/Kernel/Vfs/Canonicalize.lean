import Mathlib.Algebra.Order.BigOperators.Group.List
import Mathlib.Algebra.Order.Group.Nat
import RazionOS.Kernel.Misc.LinkedListShape
import RazionOS.Kernel.Misc.Strtok
import RazionOS.Kernel.Vfs.Path

/-!
# Canonical paths, byte by byte

`canonicalize_path` cuts copies of its arguments with `strtok_r`, keeps the names in a kernel list
that serves as a stack, and joins them into a block of the size that a first pass has added up.
The path that comes out is that of `canonicalizePath`.
-/

namespace RazionOS.Kernel.Vfs.Bytes
open Framework LinkedList Function List Strtok

/-- An allocator: whatever is in use, it finds an address that is not. -/
structure Malloc where
  alloc : List Nat → Nat
  alloc_unused : ∀ used, alloc used∉used

/-- The list at `out` and the blocks that hold its nodes and their strings. -/
structure Work where
  heap : Heap
  text : Nat → CString
  used : List Nat

def inBounds {α : Type} : Option α → Except Fault α
  | some a => .ok a
  | none => .error .badPointer

variable (malloc : Malloc)

def strdup (s : CString) (work : Work) : Nat × Work :=
  let block := malloc.alloc work.used
  (block, { work with
    text := update work.text block s
    used := block::work.used })

def insertItem (out item : Nat) (work : Work) : Except Fault Work := do
  let node := malloc.alloc work.used
  let heap ← listInsert out item node work.heap
  return { work with heap := heap, used := node::work.used }

def free (block : Nat) (work : Work) : Except Fault Work :=
  if block∈work.used then .ok { work with used := work.used.filter (· ≠ block) }
  else .error .badPointer

def pushName (out : Nat) (pch : CString) (work : Work) : Except Fault Work :=
  let (item, work) := strdup malloc pch work
  insertItem malloc out item work

def popName (out : Nat) (work : Work) : Except Fault Work := do
  let (n, heap) ← listPop out work.heap
  let work := { work with heap := heap }
  match n with
  | none => return work
  | some n =>
    let work ← free (work.heap.value n) work
    let work ← free n work
    return { work with heap := { work.heap with node := update work.heap.node n false } }

def foldName (out : Nat) (pch : CString) (work : Work) : Except Fault Work :=
  if pch=pathUp then popName out work
  else if pch=pathDot then .ok work
  else pushName malloc out pch work

def pathSeparatorString : CString := [pathSeparator]

/-- `while (pch != NULL)` with the call of `strtok_r` at its end. -/
def strtokLoop (body : CString → Work → Except Fault Work) :
    Nat → Option Nat × Nat → List UInt8 → Work → Except Fault Work
  | 0, _, _, _ => .error .noEnd
  | _+1, (none, _), _, work => .ok work
  | fuel+1, (some pch, save), path, work => do
    let name ← inBounds (stringAt path pch)
    let work ← body name work
    let (next, path) ← inBounds (Strtok.strtokR pathSeparatorString save path)
    strtokLoop body fuel next path work

def strtokAll (body : CString → Work → Except Fault Work) (s : CString) (work : Work) :
    Except Fault Work := do
  let path := s++[0]
  let (next, path) ← inBounds (Strtok.strtokR pathSeparatorString 0 path)
  strtokLoop body (s.length+1) next path work

def sizeLoop (work : Work) : Nat → Ptr → Nat → Except Fault Nat
  | 0, _, _ => .error .noEnd
  | _+1, none, size => .ok size
  | fuel+1, some item, size => do
    let item ← work.heap.deref (some item)
    sizeLoop work fuel (work.heap.next item) (size + (work.text (work.heap.value item)).length + 1)

def joinLoop (work : Work) : Nat → Ptr → Nat → List UInt8 → Except Fault (List UInt8)
  | 0, _, _, _ => .error .noEnd
  | _+1, none, _, output => .ok output
  | fuel+1, some item, offset, output => do
    let item ← work.heap.deref (some item)
    let name := work.text (work.heap.value item)
    let output ← inBounds (store offset [pathSeparator] output)
    let offset := offset+1
    let output ← inBounds (store offset (name++[0]) output)
    joinLoop work fuel (work.heap.next item) (offset+name.length) output

/-- What `malloc` returns holds any bytes. -/
def joinNames (junk : Nat → UInt8) (out : Nat) (work : Work) : Except Fault (List UInt8) := do
  work.heap.derefList out
  let fuel := work.heap.length out + 1
  let size ← sizeLoop work fuel (work.heap.head out) 0
  let output := (range (size+1)).map junk
  if size=0 then
    let output := output++[junk 1]
    let output ← inBounds (store 0 [pathSeparator] output)
    inBounds (store 1 [0] output)
  else joinLoop work fuel (work.heap.head out) 0 output

/-- The working directory is inserted first if the path is relative. -/
def insertCwd (out : Nat) (cwd input : CString) (work : Work) : Except Fault Work :=
  if input.headD 0≠0 ∧ input.headD 0≠pathSeparator then
    strtokAll (pushName malloc out) cwd work
  else .ok work

/-- The bytes of the path that `canonicalize_path` returns. -/
def canonicalizePath (junk : Nat → UInt8) (work : Work) (cwd input : CString) :
    Except Fault CString := do
  let out := malloc.alloc work.used
  let work := { work with heap := listCreate out work.heap, used := out::work.used }
  let work ← insertCwd malloc out cwd input work
  let work ← strtokAll (foldName malloc out) input work
  let output ← joinNames junk out work
  inBounds (stringAt output 0)

section Tokens
variable {malloc}

private theorem isToken_of_isName (hw : IsName w) (hz : 0∉w) : IsToken pathSeparatorString w := by
  refine ⟨hw.ne_nil,fun c hc => ⟨fun heq => hz (heq ▸ hc),?_⟩⟩
  rw [pathSeparatorString,mem_singleton]
  exact fun heq => hw.noSeparator (heq ▸ hc)

private theorem slashes_delim (hz : Slashes z) : ∀ c∈z, c∈pathSeparatorString :=
  fun c hc => mem_singleton.2 (hz c hc)

def strtokFrom (body : CString → Work → Except Fault Work) (fuel save : Nat) (path : List UInt8)
    (work : Work) : Except Fault Work := do
  let (next, path) ← inBounds (Strtok.strtokR pathSeparatorString save path)
  strtokLoop body fuel next path work

private theorem strtokFrom_token
    (hs : Strtok.strtokR pathSeparatorString save path=some ((some pch, save'), path'))
    (hn : stringAt path' pch=some name) : strtokFrom body (fuel+1) save path work =
      body name work >>= strtokFrom body fuel save' path' := by
  simp [strtokFrom,hs,inBounds,bind,Except.bind,strtokLoop,hn]

/-- The loop hands the tokens of what is left of the string to its body. -/
theorem strtokFrom_eq (before : List UInt8) (hr : 0∉rest) (hf : rest.length<fuel) (work : Work) :
    strtokFrom body fuel before.length (before++(rest++[0])) work =
      (tokens rest).foldlM (fun work name => body name work) work := by
  obtain _ | fuel := fuel
  · omega
  induction rest using slash_induction generalizing before fuel work with
  | slashes z hz =>
    have he := strtokR_end before [] (by decide) (slashes_delim hz)
    rw [strtokFrom,he,tokens_slashes hz]
    rfl
  | last z w hz hw =>
    have hze : 0∉w := fun h => hr (mem_append_right z h)
    have ht := strtokR_token before [] (slashes_delim hz)
      (isToken_of_isName hw hze) (.inl rfl)
    have hn : stringAt (before++(z++(w++[0]))) (before++z).length=some w := by
      rw [← append_assoc]
      exact stringAt_eq _ _ hze
    rw [append_assoc,strtokFrom_token ht hn,tokens_last hz hw]
    refine bind_congr fun work => ?_
    have hpos := length_pos_iff.2 hw.ne_nil
    obtain ⟨fuel,rfl⟩ : ∃ k, fuel=k+1 := by
      refine Nat.exists_eq_add_one.2 ?_
      rw [length_append] at hf
      omega
    -- What is left is empty.
    have he := strtokR_end (before++(z++w)) [] (z := [])
      (show 0∉pathSeparatorString by decide) nofun
    simp only [append_assoc,nil_append,length_append] at he
    simp only [strtokFrom,if_true,length_append,Nat.add_assoc,Nat.add_zero,he]
    rfl
  | next z w r hz hw ih =>
    have hze : 0∉w := fun h => hr (by simp [h])
    have ht := strtokR_token before (r++[0]) (d := pathSeparator) (slashes_delim hz)
      (isToken_of_isName hw hze) (.inr (by decide))
    have hn : stringAt (before++(z++(w++0::(r++[0])))) (before++z).length=some w := by
      rw [← append_assoc]
      exact stringAt_eq _ _ hze
    have hassoc : z++(w++pathSeparator::r)++[0]=z++(w++pathSeparator::(r++[0])) := by simp
    rw [hassoc,strtokFrom_token ht hn,tokens_next hz hw]
    refine bind_congr fun work => ?_
    simp only [length_append,length_cons] at hf
    obtain _ | fuel := fuel
    · omega
    have hne := ih (before++(z++(w++[0]))) (fun h => hr (by simp [h])) work fuel (by omega)
    simpa [Nat.add_assoc,show pathSeparator≠0 by decide] using hne

theorem strtokAll_eq (hs : 0∉s) :
    strtokAll body s work=(tokens s).foldlM (fun work name => body name work) work :=
  strtokFrom_eq [] hs (Nat.lt_succ_self _) work
end Tokens

structure Stack (out : Nat) (work : Work) (ns : List Nat) (names : List CString) : Prop where
  isList : IsList work.heap out ns
  texts : ns.map (fun n => work.text (work.heap.value n))=names
  nodup : (ns++ns.map work.heap.value).Nodup
  used : ∀ block∈ns++ns.map work.heap.value, block∈work.used

section Stack
variable {malloc} {names : List CString}

private theorem Stack.new (out : Nat) (work : Work) :
    Stack out { work with heap := listCreate out work.heap, used := out::work.used } [] [] where
  isList := by
    refine ⟨by simp [listCreate],?_,?_,by simp [listCreate],by simp,by simp⟩
    · simp [Linked,LinkedFrom,Heap.nextOf,listCreate]
    · simp [Linked,LinkedFrom,Heap.prevOf,listCreate]
  texts := rfl
  nodup := nodup_nil
  used := nofun

theorem pushName_stack (h : Stack out work ns names) :
    ∃ work' node, pushName malloc out pch work = .ok work' ∧
      Stack out work' (ns++[node]) (names++[pch]) := by
  obtain ⟨item,hit⟩ : ∃ item, item=malloc.alloc work.used := ⟨_,rfl⟩
  obtain ⟨node,hno⟩ : ∃ node, node=malloc.alloc (item::work.used) := ⟨_,rfl⟩
  have hitem_new := hit ▸ malloc.alloc_unused _
  have hnode_new := hno ▸ malloc.alloc_unused _
  rw [mem_cons,not_or] at hnode_new
  have hns : node∉ns := fun hmem => hnode_new.2 (h.used node (mem_append_left _ hmem))
  have hl : IsList (work.heap.newNode node item) out ns := by
    refine h.isList.congr rfl rfl rfl rfl fun n hn => ?_
    have hne : n≠node := fun heq => hns (heq ▸ hn)
    simp [hne]
  obtain ⟨heap,hin,hi⟩ :=
    (listAppend_inserts hl (by simp) hns : Yields _ _ (listAppend out node _)).exists_ok
  have hv : heap.value=update work.heap.value node item := hi.value
  have hold : ∀ n∈ns, heap.value n=work.heap.value n := by
    intro n hn
    have hne : n≠node := fun heq => hns (heq ▸ hn)
    rw [hv,update_of_ne hne]
  have hm := map_congr_left hold
  refine ⟨{ heap := heap, text := update work.text item pch,
            used := node::item::work.used },node,?_,?_⟩
  · simp only [pushName,strdup,insertItem,listInsert,← hit,← hno]
    rw [hin]
    rfl
  refine ⟨hi.isList (by simpa using hl) (by simp) (by simpa using hns),?_,?_,?_⟩
  · rw [map_append,← h.texts]
    congr 1
    · refine map_congr_left fun n hn => ?_
      have hb := h.used _ (mem_append_right ns (mem_map_of_mem hn))
      have hne : work.heap.value n≠item := fun heq => hitem_new (heq ▸ hb)
      simp [hold n hn,update_of_ne hne]
    · simp [hv]
  · have hp : (ns++[node]++(ns++[node]).map heap.value).Perm
        (node::item::(ns++ns.map work.heap.value)) := by
      rw [map_append,hm,map_singleton,hv,update_self,perm_iff_count]
      simp only [count_append,count_cons,count_nil]
      omega
    rw [hp.nodup_iff,nodup_cons,nodup_cons,mem_cons,not_or]
    exact ⟨⟨hnode_new.1,fun hmem => hnode_new.2 (h.used node hmem)⟩,
      fun hmem => hitem_new (h.used item hmem),h.nodup⟩
  · intro block hb
    rw [map_append,hm,map_singleton,hv,update_self] at hb
    have hc : block∈ns++ns.map work.heap.value ∨ block=node ∨ block=item := by
      simp only [mem_append,mem_singleton] at hb ⊢
      tauto
    rcases hc with hmem | rfl | rfl
    · exact mem_cons_of_mem _ (mem_cons_of_mem _ (h.used block hmem))
    · exact mem_cons_self
    · exact mem_cons_of_mem _ mem_cons_self

private theorem free_eq (work : Work) (hb : block∈work.used) :
    free block work = .ok { work with used := work.used.filter (· ≠ block) } := if_pos hb

private theorem popName_stack (h : Stack out work ns names) :
    ∃ work' ns', popName out work = .ok work' ∧ Stack out work' ns' names.dropLast := by
  have hl := h.isList
  rcases eq_nil_or_concat' ns with rfl | ⟨A,x,rfl⟩
  · have ht := hl.tail
    obtain rfl : names=[] := h.texts.symm
    refine ⟨work,[],?_,h⟩
    simp [popName,listPop,hl.list,ht]
  have ht : work.heap.tail out=some x := by rw [hl.tail,getLast?_concat]
  obtain ⟨heap,hde,hd⟩ := (listDelete_deletes hl).exists_ok
  have hp : (A++[x]++(A++[x]).map work.heap.value).Perm
      (x::work.heap.value x::(A++A.map work.heap.value)) := by
    rw [map_append,map_singleton,perm_iff_count]
    simp only [count_append,count_cons,count_nil]
    omega
  have hnd := hp.nodup_iff.1 h.nodup
  have hu : ∀ block∈x::work.heap.value x::(A++A.map work.heap.value),
      block∈work.used := fun block hb => h.used block (hp.mem_iff.2 hb)
  rw [nodup_cons,nodup_cons,mem_cons,not_or] at hnd
  obtain ⟨⟨hne,hx⟩,hi,hr⟩ := hnd
  have hpo : listPop out work.heap = .ok (some x, heap) := by
    simp [listPop,hl.list,ht,hde]
  have hv := hd.value
  refine ⟨{ heap := { heap with node := update heap.node x false }, text := work.text,
            used := (work.used.filter (· ≠ work.heap.value x)).filter (· ≠ x) },A,?_,?_⟩
  · have hmem : x∈work.used.filter (· ≠ work.heap.value x) :=
      mem_filter.2 ⟨hu x (by simp),by simpa using hne⟩
    have hf1 := free_eq { work with heap := heap } (hu (work.heap.value x) (by simp))
    have hf2 := free_eq
      { work with heap := heap, used := work.used.filter (· ≠ work.heap.value x) } hmem
    simp only [popName,hpo,ok_bind,pure_eq_ok,hv,hf1,hf2]
  refine ⟨?_,?_,?_,?_⟩
  · have hA : IsList heap out A := by simpa using hd.isList hl
    refine hA.congr rfl rfl rfl rfl fun n hn => ⟨rfl,rfl,rfl,?_⟩
    have hnx : n≠x := fun heq => hx (mem_append_left _ (heq ▸ hn))
    simp [hnx]
  · rw [← h.texts]
    simp [hv]
  · rwa [hv]
  · intro block hb
    rw [hv] at hb
    have hbx : block≠x := fun heq => hx (heq ▸ hb)
    have hbi : block≠work.heap.value x := fun heq => hi (heq ▸ hb)
    have hmem := hu block (mem_cons_of_mem _ (mem_cons_of_mem _ hb))
    simp [hmem,hbx,hbi]

private theorem foldName_stack (h : Stack out work ns names) :
    ∃ work' ns', foldName malloc out pch work = .ok work' ∧
      Stack out work' ns' (push names pch) := by
  rw [foldName,push]
  split_ifs
  · exact popName_stack h
  · exact ⟨work,ns,rfl,h⟩
  · obtain ⟨work',node,hp,hs⟩ := pushName_stack h
    exact ⟨work',ns++[node],hp,hs⟩

theorem foldlM_stack (body : CString → Work → Except Fault Work)
    {next : List CString → CString → List CString}
    (hb : ∀ work ns names pch, Stack out work ns names →
      ∃ work' ns', body pch work = .ok work' ∧ Stack out work' ns' (next names pch))
    (ts : List CString) (h : Stack out work ns names) :
    ∃ work' ns', ts.foldlM (fun work name => body name work) work = .ok work' ∧
      Stack out work' ns' (ts.foldl next names) := by
  induction ts generalizing work ns names with
  | nil => exact ⟨work,ns,rfl,h⟩
  | cons t ts ih =>
    obtain ⟨work1,ns1,hro,h1⟩ := hb work ns names t h
    obtain ⟨work',ns',hr,h'⟩ := ih h1
    refine ⟨work',ns',?_,h'⟩
    rw [foldlM_cons,hro]
    exact hr
end Stack

def joinedLength (names : List CString) : Nat := (names.map fun name => name.length+1).sum

private theorem sizeLoop_eq (fuel size : Nat) (hl : LinkedFrom (work.heap.nextOf out) q ns)
    (hno : ∀ n∈ns, work.heap.node n=true) (hf : ns.length<fuel) :
    sizeLoop work fuel (work.heap.nextOf out q) size =
      .ok (size + joinedLength (ns.map fun n => work.text (work.heap.value n))) := by
  induction ns generalizing q fuel size with
  | nil =>
    obtain _ | fuel := fuel
    · omega
    rw [hl]
    rfl
  | cons n ns ih =>
    obtain _ | fuel := fuel
    · omega
    have hn := hno n mem_cons_self
    have hr := ih fuel (size + (work.text (work.heap.value n)).length + 1) hl.2
      (fun m hm => hno m (mem_cons_of_mem n hm)) (by simpa using hf)
    rw [hl.1,sizeLoop]
    simp only [Heap.deref,hn,if_true,ok_bind]
    rw [Heap.nextOf] at hr
    rw [hr]
    simp [joinedLength,Nat.add_assoc]

private theorem joinLoop_eq (fuel : Nat) (done rest : List UInt8)
    (hl : LinkedFrom (work.heap.nextOf out) q ns) (hno : ∀ n∈ns, work.heap.node n=true)
    (hf : ns.length<fuel)
    (hlen : joinedLength (ns.map fun n => work.text (work.heap.value n)) < rest.length)
    (he : ns≠[] ∨ rest.head? = some 0) :
    ∃ after, joinLoop work fuel (work.heap.nextOf out q) done.length (done++rest) =
      .ok (done++((ns.map fun n => work.text (work.heap.value n)).flatMap (pathSeparator :: ·) ++
        0::after)) := by
  induction ns generalizing q fuel done rest with
  | nil =>
    obtain _ | fuel := fuel
    · omega
    obtain ⟨after,rfl⟩ : ∃ after, rest=0::after := by
      cases rest with
      | nil => simp at he
      | cons c after => exact ⟨after,by simpa using he⟩
    exact ⟨after,by rw [hl]; rfl⟩
  | cons n ns ih =>
    obtain _ | fuel := fuel
    · omega
    have hn := hno n mem_cons_self
    obtain ⟨name,hna⟩ : ∃ name, name=work.text (work.heap.value n) := ⟨_,rfl⟩
    simp only [joinedLength,map_cons,sum_cons,← hna] at hlen
    -- The block is long enough for the separator, the name and a terminator.
    obtain ⟨c,rest,rfl⟩ : ∃ c rest', rest=c::rest' :=
      exists_cons_of_ne_nil (fun hni => by simp [hni] at hlen)
    obtain ⟨old,after,rfl,hold⟩ : ∃ old after, rest=old++after ∧
        (name++[0]).length=old.length := by
      refine ⟨rest.take _,rest.drop (name.length+1),(take_append_drop ..).symm,?_⟩
      simp only [length_cons,length_append,length_take,length_nil] at *
      omega
    have hs1 := store_eq done (old++after) (show [pathSeparator].length=[c].length from rfl)
    have hs2 := store_eq (done++[pathSeparator]) after hold
    simp only [append_assoc,singleton_append,length_append,length_singleton] at hs1 hs2
    obtain ⟨last,hr⟩ := ih fuel (done++pathSeparator::name)
      (0::after) hl.2 (fun m hm => hno m (mem_cons_of_mem n hm))
      (by simpa using hf)
      (by
        simp only [length_cons,length_append,length_nil,joinedLength] at *
        omega)
      (.inr rfl)
    refine ⟨last,?_⟩
    rw [hl.1,joinLoop]
    simp only [Heap.deref,hn,if_true,ok_bind,← hna,hs1,inBounds,hs2]
    simp only [append_assoc,length_append,map_cons,flatMap_cons, ← hna] at hr ⊢
    have hpos : done.length+(name.length+1)=done.length+1+name.length := by omega
    rw [← hpos]
    exact hr

private theorem joinNames_eq {names : List CString} (junk : Nat → UInt8)
    (h : Stack out work ns names) (hna : ∀ name∈names, 0∉name) :
    ∃ output, joinNames junk out work = .ok output ∧ stringAt output 0=some (render names) := by
  have hl := h.isList
  have hli := hl.forward
  have hs := sizeLoop_eq _ 0 hli hl.node (Nat.lt_succ_self _)
  simp only [Heap.nextOf,h.texts,Nat.zero_add,← hl.length] at hs
  simp only [joinNames,Heap.derefList,hl.list,hs]
  by_cases hni : names=[]
  · subst hni
    exact ⟨[pathSeparator, 0],rfl,rfl⟩
  have hsu : joinedLength names≠0 := by
    obtain ⟨name,names,rfl⟩ := exists_cons_of_ne_nil hni
    simp [joinedLength]
  have hns : ns≠[] := by
    rintro rfl
    exact hni h.texts.symm
  obtain ⟨after,hj⟩ := joinLoop_eq (work.heap.length out + 1) []
    ((range (joinedLength names + 1)).map junk) hli hl.node
    (by rw [hl.length]; exact Nat.lt_succ_self _) (by simp [h.texts]) (.inl hns)
  rw [h.texts] at hj
  refine ⟨_,(if_neg hsu).trans hj,?_⟩
  rw [render,if_neg hni]
  refine stringAt_eq [] after fun hz => ?_
  obtain ⟨name,hn,hz⟩ := mem_flatMap.1 hz
  rcases mem_cons.1 hz with hse | hz
  · cases hse
  · exact hna name hn hz

theorem tokens_mem : ∀ w∈tokens s, ∀ c∈w, c∈s := by
  induction s using slash_induction with
  | slashes z hz =>
    rw [tokens_slashes hz]
    exact nofun
  | last z w hz hw =>
    rw [tokens_last hz hw]
    intro w' hw' c hc
    rw [mem_singleton.1 hw'] at hc
    exact mem_append_right z hc
  | next z w r hz hw ih =>
    rw [tokens_next hz hw]
    intro w' hw' c hc
    rcases mem_cons.1 hw' with rfl | hw'
    · simp [hc]
    · simp [ih w' hw' c hc]

theorem names_noNul (hc : 0∉cwd) (hi : 0∉input) : ∀ w∈names cwd input, 0∉w := by
  apply foldl_push_forall
  · exact fun w hw _ _ hz => hi (tokens_mem w hw 0 hz)
  split_ifs
  · exact fun w hw hz => hc (tokens_mem w hw 0 hz)
  · exact nofun

private theorem foldl_concat (out : List CString) :
    ts.foldl (fun out t => out++[t]) out=out++ts := by
  induction ts generalizing out with
  | nil => simp
  | cons t ts ih => simp [ih]

private theorem insertCwd_stack (hcw : 0∉cwd) (hi : 0∉input) (h : Stack out work [] []) :
    ∃ work' ns', insertCwd malloc out cwd input work = .ok work' ∧ Stack out work' ns'
      (if input≠[] ∧ input.head? ≠ some pathSeparator then tokens cwd else []) := by
  have hg : (input.headD 0≠0 ∧ input.headD 0≠pathSeparator) ↔
      (input≠[] ∧ input.head? ≠ some pathSeparator) := by
    cases input with
    | nil => simp
    | cons c input =>
      have hc : c≠0 := fun heq => hi (heq ▸ mem_cons_self)
      simp [hc]
  rw [insertCwd]
  simp only [hg]
  split_ifs
  · have hp := foldlM_stack (pushName malloc out)
      (fun work ns names pch h =>
        (pushName_stack h).imp fun work' ⟨node,hok,hs⟩ => ⟨ns++[node],hok,hs⟩)
      (tokens cwd) h
    rw [strtokAll_eq hcw]
    simpa only [foldl_concat,nil_append] using hp
  · exact ⟨work,[],rfl,h⟩

theorem canonicalizePath_eq (junk : Nat → UInt8) (work : Work) (hc : 0∉cwd) (hi : 0∉input) :
    canonicalizePath malloc junk work cwd input = .ok (Vfs.canonicalizePath cwd input) := by
  obtain ⟨work1,ns1,hw1,hs1⟩ :=
    insertCwd_stack malloc hc hi (Stack.new (malloc.alloc work.used) work)
  obtain ⟨work2,ns2,hw2,hs2⟩ := foldlM_stack (foldName malloc _)
    (fun work ns names pch h => foldName_stack h) _ hs1
  obtain ⟨output,ho,hst⟩ := joinNames_eq junk hs2 (names_noNul hc hi)
  rw [← strtokAll_eq hi] at hw2
  simp only [canonicalizePath,ok_bind,hw1,hw2,ho,hst]
  rfl

def components (s : CString) : List CString := (s.splitOn pathSeparator).filter (· ≠ [])

structure IsComponent (w : CString) : Prop extends IsName w where
  notUp : w≠pathUp
  notDot : w≠pathDot

instance (w : CString) : Decidable (IsComponent w) :=
  decidable_of_iff ((w≠[] ∧ pathSeparator∉w) ∧ w≠pathUp ∧ w≠pathDot)
    ⟨fun h => ⟨⟨h.1.1,h.1.2⟩,h.2.1,h.2.2⟩,fun h => ⟨⟨h.ne_nil,h.noSeparator⟩,h.notUp,h.notDot⟩⟩

/-- An absolute path without empty names, `.` and `..`, and without a separator at its end unless
it is the root. -/
def IsCanonical (path : CString) : Prop :=
  ∃ names, (∀ w∈names, IsComponent w) ∧
    path=if names=[] then [pathSeparator] else names.flatMap (pathSeparator :: ·)

def startNames (cwd input : CString) : List CString :=
  if input=[] ∨ input.head? = some pathSeparator then [] else components cwd

theorem components_eq_of_noSeparator (hw : pathSeparator∉w) : components w=[w].filter (· ≠ []) := by
  rw [components,splitOn,splitOnP_eq_singleton]
  intro c hc
  simpa using fun heq : c=pathSeparator => hw (heq ▸ hc)

private theorem components_append (hw : pathSeparator∉w) :
    components (w++pathSeparator::r)=components w++components r := by
  have hs : (w++pathSeparator::r).splitOn pathSeparator=w::r.splitOn pathSeparator := by
    refine splitOnP_append_cons_of_forall_mem (fun c hc => ?_) _ (by simp) r
    simpa using fun heq : c=pathSeparator => hw (heq ▸ hc)
  rw [components_eq_of_noSeparator hw,components,hs,← singleton_append,filter_append]
  rfl

private theorem tokens_eq_of_noSeparator (hw : pathSeparator∉w) : tokens w=components w := by
  rw [components_eq_of_noSeparator hw]
  by_cases hn : w=[]
  · subst hn
    rfl
  · rw [IsName.tokens ⟨hn,hw⟩]
    simp [hn]

theorem tokens_eq_components (s : CString) : tokens s=components s := by
  induction hlen : s.length using Nat.strong_induction_on generalizing s with
  | _ length ih =>
    by_cases hs : pathSeparator∈s
    · obtain ⟨w,r,rfl,hw⟩ := eq_append_cons_of_mem hs
      rw [tokens_append,components_append hw,tokens_eq_of_noSeparator hw,ih r.length _ r rfl]
      rw [← hlen,length_append,length_cons]
      omega
    · exact tokens_eq_of_noSeparator hs

private theorem tokens_flatMap (ho : ∀ w∈out, IsName w) :
    tokens (out.flatMap (pathSeparator :: ·))=out := by
  induction out with
  | nil => rfl
  | cons w out ih =>
    have hr := ih fun v hv => ho v (mem_cons_of_mem w hv)
    have hw := (ho w mem_cons_self).tokens
    rw [flatMap_cons,cons_append,← nil_append (pathSeparator::_),tokens_append,
      tokens_slashes (z := []) nofun,nil_append]
    cases out with
    | nil => simpa using hw
    | cons v out =>
      -- The separator of the next name ends this one.
      rw [flatMap_cons,cons_append,← nil_append (pathSeparator::_),tokens_append,
        tokens_slashes (z := []) nofun,nil_append] at hr
      rw [flatMap_cons,cons_append,tokens_append,hw,hr,singleton_append]

theorem tokens_render (ho : ∀ w∈out, IsName w) : tokens (render out)=out := by
  rw [render]
  split_ifs with hn
  · rw [hn]
    rfl
  · exact tokens_flatMap ho

theorem IsCanonical.exists_names (h : IsCanonical path) :
    ∃ names, (∀ w∈names, IsComponent w) ∧ path=render names ∧ tokens path=names := by
  obtain ⟨names,hn,hp⟩ := h
  refine ⟨names,hn,hp,?_⟩
  rw [hp]
  exact tokens_render fun w hw => (hn w hw).toIsName

private theorem names_eq_foldl :
    names cwd input=(components input).foldl push (startNames cwd input) := by
  have hs : startNames cwd input =
      if input≠[] ∧ input.head? ≠ some pathSeparator then tokens cwd else [] := by
    rw [startNames,tokens_eq_components]
    by_cases ha : input=[] ∨ input.head? = some pathSeparator
    · rw [if_pos ha,if_neg (by tauto)]
    · rw [if_neg ha,if_pos (by tauto)]
  rw [hs,← tokens_eq_components]
  rfl

private theorem canonicalizePath_isCanonical (hc : IsCanonical cwd) (input : CString) :
    IsCanonical (Vfs.canonicalizePath cwd input) := by
  obtain ⟨cs,hcs,-,ht⟩ := hc.exists_names
  refine ⟨names cwd input,?_,rfl⟩
  rw [names,ht]
  apply foldl_push_forall
  · exact fun w hw hup hd => ⟨tokens_isName w hw,hup,hd⟩
  split_ifs
  · exact hcs
  · simp

private theorem foldl_push_components (hcs : ∀ w∈cs, IsComponent w) (out : List CString) :
    cs.foldl push out=out++cs := by
  induction cs generalizing out with
  | nil => simp
  | cons w cs ih =>
    have hw := hcs w mem_cons_self
    rw [foldl_cons,push,if_neg hw.notUp,if_neg hw.notDot,
      ih fun v hv => hcs v (mem_cons_of_mem w hv),append_assoc,singleton_append]

theorem head?_render (out : List CString) : (render out).head? = some pathSeparator := by
  cases out <;> rfl

/-- A canonical path is its own canonical path, wherever it is looked up from. -/
theorem canonicalizePath_self (h : IsCanonical path) : Vfs.canonicalizePath cwd path=path := by
  obtain ⟨cs,hcs,hp,ht⟩ := h.exists_names
  have ha := hp ▸ head?_render cs
  have hn : names cwd path=cs := by
    rw [names,ht,if_neg (by simp [ha]),foldl_push_components hcs,nil_append]
  rw [Vfs.canonicalizePath,hn,hp]

private theorem canonicalizePath_append (ha : a≠[]) (hb : b≠[])
    (hr : b.head? ≠ some pathSeparator) : Vfs.canonicalizePath cwd (a++pathSeparator::b) =
      Vfs.canonicalizePath (Vfs.canonicalizePath cwd a) b := by
  have hf : names cwd (a++pathSeparator::b)=(tokens b).foldl push (names cwd a) := by
    rw [names,names,tokens_append,head?_append_of_ne_nil _ ha]
    simp [ha]
  have hs : names (Vfs.canonicalizePath cwd a) b=(tokens b).foldl push (names cwd a) := by
    rw [names,if_pos ⟨hb,hr⟩,Vfs.canonicalizePath,tokens_render names_isName]
  rw [Vfs.canonicalizePath,hf,Vfs.canonicalizePath,hs]

private theorem canonicalizePath_noNul (hc : 0∉cwd) (hi : 0∉input) :
    0∉Vfs.canonicalizePath cwd input := by
  intro hz
  rw [Vfs.canonicalizePath,render] at hz
  split_ifs at hz
  · cases mem_singleton.1 hz
  obtain ⟨w,hw,hz⟩ := mem_flatMap.1 hz
  rcases mem_cons.1 hz with hs | hz
  · cases hs
  · exact names_noNul hc hi w hw hz

/-- `canonicalize_path` on strings, with any allocator and any state of the memory. -/
theorem canonicalizePath_lexical (junk : Nat → UInt8) (work : Work) (cwd : CString)
    (hnul : 0 ∉ cwd) (hcwd : IsCanonical cwd) :
    (∀ input, 0 ∉ input → ∃ path, canonicalizePath malloc junk work cwd input = .ok path ∧
      IsCanonical path ∧ path = render ((components input).foldl push (startNames cwd input)) ∧
      ∀ cwd', 0 ∉ cwd' → canonicalizePath malloc junk work cwd' path = .ok path) ∧
    ∀ a b, 0 ∉ a → 0 ∉ b → a ≠ [] → b ≠ [] → b.head? ≠ some pathSeparator →
      ∃ path, canonicalizePath malloc junk work cwd a = .ok path ∧
        canonicalizePath malloc junk work cwd (a ++ pathSeparator :: b) =
          canonicalizePath malloc junk work path b := by
  constructor
  · intro input hi
    have hc := canonicalizePath_isCanonical hcwd input
    have hp := canonicalizePath_noNul hnul hi
    refine ⟨_,canonicalizePath_eq malloc junk work hnul hi,hc,?_,?_⟩
    · rw [Vfs.canonicalizePath,names_eq_foldl]
    · intro cwd' hcw'
      rw [canonicalizePath_eq malloc junk work hcw' hp,canonicalizePath_self hc]
  · intro a b ha hb han hbn hr
    have hab : 0∉a++pathSeparator::b := by
      simp [ha,hb,show (0 : UInt8)≠pathSeparator by decide]
    refine ⟨_,canonicalizePath_eq malloc junk work hnul ha,?_⟩
    rw [canonicalizePath_eq malloc junk work hnul hab,
      canonicalizePath_eq malloc junk work (canonicalizePath_noNul hnul ha) hb,
      canonicalizePath_append han hbn hr]

def bumpMalloc : Malloc where
  alloc used := used.sum+1
  alloc_unused used h := by
    have := single_le_sum (fun _ _ => Nat.zero_le _) _ h
    omega

def emptyWork : Work where
  heap := ⟨fun _ => false,fun _ => none,fun _ => none,fun _ => 0,fun _ => none,
    fun _ => false,fun _ => none,fun _ => none,fun _ => 0⟩
  text _ := []
  used := []

/-- The path `../c/./d` in `/a/b`. -/
theorem canonicalizePath_relative : IsCanonical (cString "/a/b") ∧
    canonicalizePath bumpMalloc (fun _ => 255) emptyWork (cString "/a/b") (cString "../c/./d") =
      .ok (cString "/a/c/d") := by
  have hc : IsCanonical (cString "/a/b") := ⟨[cString "a", cString "b"],by decide,by decide⟩
  obtain ⟨path,hok,-,hp,-⟩ := (canonicalizePath_lexical bumpMalloc (fun _ => 255) emptyWork
    (cString "/a/b") (by decide) hc).1 (cString "../c/./d") (by decide)
  have hr : path=cString "/a/c/d" := hp.trans (by decide)
  exact ⟨hc,hr ▸ hok⟩
end RazionOS.Kernel.Vfs.Bytes
