import Mathlib.Logic.Function.Basic

/-!
# Kernel lists

The doubly linked lists of the kernel: headers with a first node, a last node and a length,
and nodes that know their neighbours and their list. Memory is one function per field.
-/

namespace RazionOS.Kernel.LinkedList
open Function

inductive Fault where
  | nullPointer
  /-- Neither `NULL` nor the address of an object in use. -/
  | badPointer
  /-- A loop has not ended in the number of rounds it was given. -/
  | noEnd
deriving DecidableEq

/-- `none` is `NULL`. -/
abbrev Ptr := Option Nat

structure Heap where
  node : Nat → Bool
  next : Nat → Ptr
  prev : Nat → Ptr
  value : Nat → Nat
  owner : Nat → Ptr
  list : Nat → Bool
  head : Nat → Ptr
  tail : Nat → Ptr
  length : Nat → Nat

namespace Heap

@[simp] def deref (st : Heap) : Ptr → Except Fault Nat
  | none => .error .nullPointer
  | some n => if st.node n then .ok n else .error .badPointer

/-- Each operation reads or writes the header of its list. -/
@[simp] def derefList (st : Heap) (list : Nat) : Except Fault Unit :=
  if st.list list then .ok () else .error .badPointer

@[simp] def setNext (st : Heap) (n : Nat) (p : Ptr) : Heap := { st with next := update st.next n p }

@[simp] def setPrev (st : Heap) (n : Nat) (p : Ptr) : Heap := { st with prev := update st.prev n p }

@[simp] def setOwner (st : Heap) (n : Nat) (p : Ptr) : Heap :=
  { st with owner := update st.owner n p }

@[simp] def setHead (st : Heap) (list : Nat) (p : Ptr) : Heap :=
  { st with head := update st.head list p }

@[simp] def setTail (st : Heap) (list : Nat) (p : Ptr) : Heap :=
  { st with tail := update st.tail list p }

@[simp] def setLength (st : Heap) (list length : Nat) : Heap :=
  { st with length := update st.length list length }

/-- A node that is in no list, as `list_insert` and the owners of embedded nodes set it up. -/
@[simp] def newNode (st : Heap) (new value : Nat) : Heap :=
  { st with
    node := update st.node new true
    next := update st.next new none
    prev := update st.prev new none
    value := update st.value new value
    owner := update st.owner new none }
end Heap

def listAppend (list node : Nat) (st : Heap) : Except Fault Heap := do
  let _ ← st.deref (some node)
  let st := st.setNext node none
  st.derefList list
  let st := st.setOwner node (some list)
  if st.length list=0 then
    let st := (st.setHead list (some node)).setTail list (some node)
    let st := (st.setPrev node none).setNext node none
    return st.setLength list (st.length list + 1)
  let last ← st.deref (st.tail list)
  let st := st.setNext last (some node)
  let st := st.setPrev node (st.tail list)
  let st := st.setTail list (some node)
  return st.setLength list (st.length list + 1)

/-- The addresses of new objects are what `malloc` returned. -/
def listInsert (list item new : Nat) (st : Heap) : Except Fault Heap :=
  listAppend list new (st.newNode new item)

def listAppendAfter (list : Nat) (before : Ptr) (node : Nat) (st : Heap) : Except Fault Heap := do
  let _ ← st.deref (some node)
  let st := st.setOwner node (some list)
  st.derefList list
  if st.length list=0 then
    listAppend list node st
  else
    match before with
    | none =>
      let st := (st.setNext node (st.head list)).setPrev node none
      let first ← st.deref (st.head list)
      let st := (st.setPrev first (some node)).setHead list (some node)
      return st.setLength list (st.length list + 1)
    | some before =>
      let _ ← st.deref (some before)
      let st ← if some before=st.tail list then
          pure (st.setTail list (some node))
        else do
          let after ← st.deref (st.next before)
          let st := st.setPrev after (some node)
          pure (st.setNext node (st.next before))
      let st := (st.setPrev node (some before)).setNext before (some node)
      return st.setLength list (st.length list + 1)

def listInsertAfter (list : Nat) (before : Ptr) (item new : Nat) (st : Heap) : Except Fault Heap :=
  listAppendAfter list before new (st.newNode new item)

def listAppendBefore (list : Nat) (after : Ptr) (node : Nat) (st : Heap) : Except Fault Heap := do
  let _ ← st.deref (some node)
  let st := st.setOwner node (some list)
  st.derefList list
  if st.length list=0 then
    listAppend list node st
  else
    match after with
    | none =>
      let st := (st.setNext node none).setPrev node (st.tail list)
      let last ← st.deref (st.tail list)
      let st := (st.setNext last (some node)).setTail list (some node)
      return st.setLength list (st.length list + 1)
    | some after =>
      let _ ← st.deref (some after)
      let st ← if some after=st.head list then
          pure (st.setHead list (some node))
        else do
          let before ← st.deref (st.prev after)
          let st := st.setNext before (some node)
          pure (st.setPrev node (st.prev after))
      let st := (st.setNext node (some after)).setPrev after (some node)
      return st.setLength list (st.length list + 1)

def listInsertBefore (list : Nat) (after : Ptr) (item new : Nat) (st : Heap) : Except Fault Heap :=
  listAppendBefore list after new (st.newNode new item)

def listCreate (new : Nat) (st : Heap) : Heap :=
  { st with
    list := update st.list new true
    head := update st.head new none
    tail := update st.tail new none
    length := update st.length new 0 }

def findLoop (value : Nat) (st : Heap) : Nat → Ptr → Except Fault Ptr
  | 0, _ => .error .noEnd
  | _+1, none => .ok none
  | fuel+1, some item => do
    let item ← st.deref (some item)
    if st.value item=value then .ok (some item) else findLoop value st fuel (st.next item)

def listFind (fuel list value : Nat) (st : Heap) : Except Fault Ptr := do
  st.derefList list
  findLoop value st fuel (st.head list)

def indexOfLoop (value : Nat) (st : Heap) : Nat → BitVec 32 → Ptr → Except Fault (BitVec 32)
  | 0, _, _ => .error .noEnd
  | _+1, _, none => .ok (-1)
  | fuel+1, i, some item => do
    let item ← st.deref (some item)
    if st.value item=value then .ok i else indexOfLoop value st fuel (i+1) (st.next item)

def listIndexOf (fuel list value : Nat) (st : Heap) : Except Fault (BitVec 32) := do
  st.derefList list
  indexOfLoop value st fuel 0 (st.head list)

def listDelete (list : Nat) (node : Ptr) (st : Heap) : Except Fault Heap := do
  st.derefList list
  let n ← st.deref node
  let st := if node=st.head list then st.setHead list (st.next n) else st
  let st := if node=st.tail list then st.setTail list (st.prev n) else st
  let st ← match st.prev n with
    | none => pure st
    | some before => do
      let before ← st.deref (some before)
      pure (st.setNext before (st.next n))
  let st ← match st.next n with
    | none => pure st
    | some after => do
      let after ← st.deref (some after)
      pure (st.setPrev after (st.prev n))
  let st := ((st.setPrev n none).setNext n none).setOwner n none
  return st.setLength list (st.length list - 1)

def walk (st : Heap) : Nat → Ptr → Except Fault Ptr
  | 0, n => .ok n
  | index+1, n => do
    let n ← st.deref n
    walk st index (st.next n)

def listRemove (list index : Nat) (st : Heap) : Except Fault Heap := do
  st.derefList list
  if st.length list < index then return st
  let n ← walk st index (st.head list)
  listDelete list n st

def listPop (list : Nat) (st : Heap) : Except Fault (Ptr × Heap) := do
  st.derefList list
  match st.tail list with
  | none => return (none, st)
  | some out =>
    let st ← listDelete list (some out) st
    return (some out, st)

def listDequeue (list : Nat) (st : Heap) : Except Fault (Ptr × Heap) := do
  st.derefList list
  match st.head list with
  | none => return (none, st)
  | some out =>
    let st ← listDelete list (some out) st
    return (some out, st)

/-- The loop of `list_copy`, which stays at its node. -/
def copyLoop (out : Nat) (alloc : Nat → Nat) : Nat → Nat → Ptr → Heap → Except Fault Heap
  | 0, _, _, _ => .error .noEnd
  | _+1, _, none, st => .ok st
  | fuel+1, i, some node, st => do
    let n ← st.deref (some node)
    let st ← listInsert out (st.value n) (alloc i) st
    copyLoop out alloc fuel (i+1) (some node) st

/-- The nodes of the copy are at `alloc 0`, `alloc 1` and so on. -/
def listCopy (fuel original new : Nat) (alloc : Nat → Nat) (st : Heap) : Except Fault Heap := do
  let st := listCreate new st
  st.derefList original
  copyLoop new alloc fuel 0 (st.head original) st

def ownLoop (target : Nat) : Nat → Ptr → Heap → Except Fault Heap
  | 0, _, _ => .error .noEnd
  | _+1, none, st => .ok st
  | fuel+1, some node, st => do
    let n ← st.deref (some node)
    let st := st.setOwner n (some target)
    ownLoop target fuel (st.next n) st

def listMerge (fuel target source : Nat) (st : Heap) : Except Fault Heap := do
  st.derefList source
  let st ← ownLoop target fuel (st.head source) st
  st.derefList target
  let st ← match st.head source with
    | none => pure st
    | some first => do
      let first ← st.deref (some first)
      pure (st.setPrev first (st.tail target))
  let st ← match st.tail target with
    | some last => do
      let last ← st.deref (some last)
      pure (st.setNext last (st.head source))
    | none => pure (st.setHead target (st.head source))
  let st := match st.tail source with
    | some last => st.setTail target (some last)
    | none => st
  let st := st.setLength target (st.length target + st.length source)
  return { st with list := update st.list source false }
end RazionOS.Kernel.LinkedList
