import RazionOS.Framework.Loop
import RazionOS.Kernel.Misc.Strtok
import Mathlib.Algebra.BigOperators.Group.Finset.Basic

/-!
# Shared memory

A chunk of frames has a name, a path in the tree of names, and is mapped into the processes that
have obtained it, at an address of their own. Each call is under one lock.
-/

namespace RazionOS.Kernel.Shm
open Framework Function

def separator : UInt8 := 46
def userShmLow : Nat := 0x400100000000

inductive Fault where
  | nullPointer
  | nameOverflow
  | useAfterFree
  | neverReturns
deriving DecidableEq

structure Node where
  name : List UInt8
  chunk : Option Nat
  children : List Nat
deriving DecidableEq

/-- `frames` has `num_frames` entries. A chunk that has been freed is kept for the record. -/
structure Chunk where
  parent : Nat
  refCount : Int
  frames : List Nat
  freed : Bool
deriving DecidableEq

structure Mapping where
  chunk : Nat
  vaddrs : List Nat
deriving DecidableEq

def Mapping.base (m : Mapping) : Nat := m.vaddrs.headD 0

structure Proc where
  mappings : List Mapping
  shmHeap : Nat
  /-- The frame that a page is mapped to, if it is present. -/
  page : Nat → Option Nat
  exited : Bool

/-- Nodes, chunks and processes go by numbers; those of freed chunks are not used again. -/
structure State where
  nodes : Nat → Node
  nodeCount : Nat
  chunks : Nat → Chunk
  chunkCount : Nat
  procs : Nat → Proc
  procCount : Nat
  /-- The calls of `mmu_frame_release`, with the chunk that they are for. -/
  released : List (Nat × Nat)

namespace State

variable (s : State)

def setNode (node : Nat) (n : Node) : State := { s with nodes := update s.nodes node n }

def setChunk (c : Nat) (chunk : Chunk) : State :=
  { s with chunks := update s.chunks c chunk }

def setProc (pid : Nat) (p : Proc) : State := { s with procs := update s.procs pid p }
end State

def newProc : Proc := ⟨[],userShmLow,fun _ => none,false⟩

def install : State :=
  { nodes := fun _ => ⟨[],none,[]⟩
    nodeCount := 1
    chunks := fun _ => ⟨0,0,[],true⟩
    chunkCount := 0
    procs := fun _ => newProc
    procCount := 0
    released := [] }

/-- `strtok_r` on a string: the token or `NULL`, and what `save` points to then. -/
def strtok (path : List UInt8) : Option (List UInt8) × List UInt8 :=
  match path.dropWhile (· == separator) with
  | [] => (none, [])
  | b::str =>
    (some ((b::str).takeWhile (· != separator)), ((b::str).dropWhile (· != separator)).drop 1)

def findChild (nodes : Nat → Node) (pch : Option (List UInt8)) :
    List Nat → Except Fault (Option Nat)
  | [] => .ok none
  | node::rest =>
    match pch with
    | none => .error .nullPointer
    | some name => if (nodes node).name=name then .ok (some node) else findChild nodes pch rest

/-- `tree_node_insert_child` of a new node. -/
def insertChild (parent : Nat) (name : List UInt8) (s : State) : State :=
  let n := s.nodes parent
  let s := s.setNode parent { n with children := n.children++[s.nodeCount] }
  { s.setNode s.nodeCount ⟨name,none,[]⟩ with nodeCount := s.nodeCount+1 }

/-- `_get_node`; each round takes a token from the path. -/
def getNodeFrom : Nat → List UInt8 → Bool → Nat → State → Except Fault (Option Nat × State)
  | 0, _, _, _, _ => .error .neverReturns
  | rounds+1, path, create, parent, s => do
    let (pch, save) := strtok path
    match ← findChild s.nodes pch (s.nodes parent).children with
    | some node => if save=[] then .ok (some node, s) else getNodeFrom rounds save create node s
    | none =>
      if create then
        match pch with
        | none => .error .nullPointer
        | some name =>
          if 256<name.length+1 then .error .nameOverflow
          else
            let node := s.nodeCount
            let s := insertChild parent name s
            if save=[] then .ok (some node, s) else getNodeFrom rounds save create node s
      else .ok (none, s)

def getNode (path : List UInt8) (create : Bool) (s : State) : Except Fault (Option Nat × State) :=
  getNodeFrom (path.length+1) path create 0 s

/-- The frames are those that `mmu_allocate_a_frame` gives. -/
def createChunk (parent size : Nat) (frames : Nat → Nat) : Option Chunk :=
  if size=0 then none
  else
    let numFrames := size/0x1000 + if size%0x1000≠0 then 1 else 0
    some ⟨parent,1,(List.range numFrames).map frames,false⟩

def releaseChunk (c : Nat) (s : State) : Except Fault State :=
  let chunk := s.chunks c
  if chunk.freed then .error .useAfterFree
  else
    let chunk := { chunk with refCount := chunk.refCount-1 }
    if chunk.refCount<1 then
      let n := s.nodes chunk.parent
      .ok { (s.setNode chunk.parent { n with chunk := none }).setChunk c
              { chunk with freed := true } with
            released := s.released++chunk.frames.map fun frame => (c, frame) }
    else .ok (s.setChunk c chunk)

def procSbrk (numPages heap : Nat) : Nat × Nat :=
  let initial := if heap%0x1000≠0 then heap+(0x1000-heap%0x1000) else heap
  (initial, initial+numPages*0x1000)

/-- Before the first mapping with a gap before it, or behind the end of the last. -/
inductive Place where
  | gap (start : Nat) (before after : List Mapping)
  | tail (lastAddress : Nat)

def findGap (size : Nat) : Nat → List Mapping → List Mapping → Place
  | lastAddress, _, [] => .tail lastAddress
  | lastAddress, before, m::after =>
    if m.base > lastAddress ∧ m.base-lastAddress ≥ size then .gap lastAddress before (m::after)
    else findGap size (m.base+m.vaddrs.length*0x1000) (before++[m]) after

def gapAddrs (start numFrames : Nat) : List Nat :=
  (List.range numFrames).map fun i => start+i*0x1000%2^32

/-- The pages that the heap grows by, one after the other, and its end then. -/
def heapAddrs : Nat → Nat → List Nat × Nat
  | 0, heap => ([], heap)
  | numFrames+1, heap =>
    let (newVpage, heap) := procSbrk 1 heap
    let (rest, heap) := heapAddrs numFrames heap
    (newVpage::rest, heap)

/-- The frames in the page table, before `mmu_frame_allocate` sets the other bits. -/
def mapPages (vaddrs frames : List Nat) (page : Nat → Option Nat) : Nat → Option Nat :=
  (vaddrs.zip frames).foldl
    (fun page (vaddr, frame) => update page (vaddr/0x1000) (some frame)) page

/-- The pages for a new mapping, the mappings before and after it, and the end of the heap. -/
structure Slot where
  vaddrs : List Nat
  before : List Mapping
  after : List Mapping
  heap : Nat

def findSlot (numFrames : Nat) (p : Proc) : Slot :=
  let size := numFrames*0x1000
  match findGap size userShmLow [] p.mappings with
  | .gap start before after => ⟨gapAddrs start numFrames,before,after,p.shmHeap⟩
  | .tail lastAddress =>
    if p.shmHeap > lastAddress ∧ p.shmHeap-lastAddress ≥ size then
      ⟨gapAddrs lastAddress numFrames,p.mappings,[],p.shmHeap⟩
    else
      let (vaddrs, heap) := heapAddrs numFrames p.shmHeap
      ⟨vaddrs,p.mappings,[],heap⟩

/-- The address of the new mapping of the chunk, and the process with it. -/
def mapIn (c : Nat) (frames : List Nat) (p : Proc) : Nat × Proc :=
  let slot := findSlot frames.length p
  (slot.vaddrs.headD 0,
    { p with
      mappings := slot.before++Mapping.mk c slot.vaddrs::slot.after
      shmHeap := slot.heap
      page := mapPages slot.vaddrs frames p.page })

/-- The address, 0 for `NULL`, and the size that is stored. -/
def shmObtain (pid : Nat) (path : List UInt8) (size : Nat) (frames : Nat → Nat) (s : State) :
    Except Fault ((Nat × Nat) × State) := do
  match ← getNode path true s with
  | (none, _) => .error .nullPointer
  | (some node, s) =>
    match (s.nodes node).chunk with
    | none =>
      match createChunk node size frames with
      | none => .ok ((0, size), s)
      | some chunk =>
        let c := s.chunkCount
        let s := { s.setChunk c chunk with chunkCount := c+1 }
        let s := s.setNode node { s.nodes node with chunk := some c }
        let (start, p) := mapIn c chunk.frames (s.procs pid)
        .ok ((start, chunk.frames.length*0x1000), s.setProc pid p)
    | some c =>
      let chunk := s.chunks c
      if chunk.freed then .error .useAfterFree
      else
        let s := s.setChunk c { chunk with refCount := chunk.refCount+1 }
        let (start, p) := mapIn c chunk.frames (s.procs pid)
        .ok ((start, chunk.frames.length*0x1000), s.setProc pid p)

def unmapPages (vaddrs : List Nat) (page : Nat → Option Nat) : Nat → Option Nat :=
  vaddrs.foldl (fun page vaddr => update page (vaddr/0x1000) none) page

def shmRelease (pid : Nat) (path : List UInt8) (s : State) : Except Fault (Nat × State) := do
  match ← getNode path false s with
  | (none, s) => .ok (1, s)
  | (some node, s) =>
    let p := s.procs pid
    match (s.nodes node).chunk with
    | none => .ok (1, s)
    | some c =>
      match p.mappings.find? fun m => m.chunk == c with
      | none => .ok (1, s)
      | some mapping =>
        let s := s.setProc pid { p with page := unmapPages mapping.vaddrs p.page }
        let s ← releaseChunk c s
        let p := s.procs pid
        .ok (0, s.setProc pid { p with mappings := p.mappings.eraseP fun m => m.chunk == c })

/-- The loop of `shm_release_all` over the mappings, the last one first. -/
def releaseLoop (pid : Nat) : Nat → State → Except Fault State
  | 0, s => .ok s
  | count+1, s =>
    let p := s.procs pid
    match p.mappings.getLast? with
    | none => .ok s
    | some mapping => do
      let s ← releaseChunk mapping.chunk (s.setProc pid { p with mappings := p.mappings.dropLast })
      releaseLoop pid count s

def shmReleaseAll (pid : Nat) (s : State) : Except Fault State :=
  releaseLoop pid (s.procs pid).mappings.length s

inductive Event where
  | spawn
  | obtain (pid : Nat) (path : List UInt8) (size : Nat) (frames : Nat → Nat)
  | release (pid : Nat) (path : List UInt8)
  | exit (pid : Nat)

def State.alive (s : State) (pid : Nat) : Bool := pid < s.procCount && !(s.procs pid).exited

def step (s : State) : Event → Except Fault State
  | .spawn => .ok { s.setProc s.procCount newProc with procCount := s.procCount+1 }
  | .obtain pid path size frames =>
    if s.alive pid then (shmObtain pid path size frames s).map Prod.snd else .ok s
  | .release pid path => if s.alive pid then (shmRelease pid path s).map Prod.snd else .ok s
  | .exit pid =>
    if s.alive pid then
      (shmReleaseAll pid s).map fun s => s.setProc pid { s.procs pid with exited := true }
    else .ok s
end RazionOS.Kernel.Shm
