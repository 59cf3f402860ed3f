import RazionOS.Kernel.Arch.Processes

/-! # Memory mappings -/

namespace RazionOS.Kernel
open Framework

def protWrite : Nat := 2
def protExec : Nat := 4
def mapPrivate : Nat := 0x02
def mapFixed : Nat := 0x10

def mmuFlagKernel : Nat := 0x01
def mmuFlagWritable : Nat := 0x02
def mmuFlagNocache : Nat := 0x04
def mmuFlagWritethrough : Nat := 0x08
def mmuFlagSpec : Nat := 0x10
def mmuFlagNoexecute : Nat := 0x20

def PML.withFlags (e : PML) (flags : Nat) : PML :=
  { e with
    present := true
    writable := flags &&& mmuFlagWritable != 0
    user := flags &&& mmuFlagKernel == 0
    nocache := flags &&& mmuFlagNocache != 0
    writethrough := flags &&& mmuFlagWritethrough != 0
    size := flags &&& mmuFlagSpec != 0
    nx := flags &&& mmuFlagNoexecute != 0 }

/-- A frame number that is in the entry already is kept as it is. -/
def mmuFrameAllocate (t l flags : Nat) (s : MMU) : Except Fatal MMU :=
  if (s.mem t l).page=0 then do
    let (index, s) ← mmuAllocateAFrame s
    let entry : PML := { s.mem t l with page := BitVec.ofNat 28 index }
    return s.setEntry t l (entry.withFlags flags)
  else .ok (s.setEntry t l ((s.mem t l).withFlags flags))

def sanityCheck (t l : Nat) (s : MMU) : Except Fatal Unit :=
  if (s.mem t l).cowPending then .error .mappingCow else .ok ()

/-- One round of `mmap_anon` and `mmap_file`; `fill` is what the call leaves in the page. -/
def mapPage (root flags : Nat) (fill : (Nat → PML) → Nat → PML) (address : Nat) (s : MMU) :
    Except Fatal MMU := do
  let (page, s) ← mmuGetPage root address true s
  match page with
  | none => .error .nullPointer
  | some (t, l) =>
    sanityCheck t l s
    let s ← mmuFrameAllocate t l flags s
    let pageBack := mmuMapFromPhysical (s.mem t l).page.toNat
    return s.setFrame pageBack (fill (s.mem pageBack))

inductive MmapError where
  | enotsup
  | einval
  | enomem
deriving DecidableEq, Repr

structure MmapArgs where
  addr : Nat
  length : Nat
  prot : Nat
  flags : Nat

def MmapArgs.fixed (args : MmapArgs) : Bool := args.flags &&& mapFixed != 0

def mmapCommonChecks (args : MmapArgs) : Option MmapError :=
  if args.flags &&& mapPrivate=0 then some .enotsup
  else if args.addr%pageSize≠0 then some .einval
  else if args.length%pageSize≠0 then some .einval
  else if args.length=0 then some .einval
  else if args.length > 0x800000000 then some .enomem
  else if args.fixed ∧ args.addr > 0x800000000000-args.length then some .einval
  else none

/-- The flags for the pages; no `prot` has a bit in common with `PROT_NONE`, which is 0. -/
def mmuFlags (prot : Nat) : Nat :=
  (if prot &&& protWrite≠0 then mmuFlagWritable else 0) |||
    (if prot &&& protExec=0 then mmuFlagNoexecute else 0)

/-- Memory, the directories of the processes, and the end of each one's heap. -/
structure System where
  machine : Machine
  heap : Nat → Nat

def mapBase (st : System) (root : Nat) (args : MmapArgs) : Nat :=
  if args.fixed then args.addr else st.heap root

def mapRange (root : Nat) (args : MmapArgs) (fill : Nat → (Nat → PML) → Nat → PML) (st : System) :
    Except Fatal (Nat × System) := do
  let addr := mapBase st root args
  let heap := if args.fixed then st.heap
    else Function.update st.heap root ((st.heap root + args.length)%2 ^ 64)
  let mmu ← forRange
    (fun i => mapPage root (mmuFlags args.prot) (fill i) ((addr+i*pageSize)%2 ^ 64))
    (args.length/pageSize) st.machine.mmu
  return (addr, { machine := { st.machine with mmu }, heap })

def mmapAnon (root : Nat) (args : MmapArgs) (st : System) :
    Except Fatal (Except MmapError Nat × System) :=
  match mmapCommonChecks args with
  | some error => .ok (.error error, st)
  | none => do
    let (addr, st) ← mapRange root args (fun _ _ _ => .ofRaw 0) st
    return (.ok addr, st)

/-- What `read_fs` and the clearing after it leave in the page for an offset of a file. -/
abbrev FileContent := Nat → (Nat → PML) → Nat → PML

def mmapFile (root : Nat) (args : MmapArgs) (file : FileContent) (offset : Nat) (st : System) :
    Except Fatal (Except MmapError Nat × System) :=
  match mmapCommonChecks args with
  | some error => .ok (.error error, st)
  | none =>
    if offset%pageSize≠0 then .ok (.error .einval, st)
    else do
      let (addr, st) ← mapRange root args (fun i => file (offset+i*pageSize)) st
      return (.ok addr, st)

inductive Call where
  | op (o : Op)
  | mmapAnon (r : Nat) (args : MmapArgs)
  | mmapFile (r : Nat) (args : MmapArgs) (file : FileContent) (offset : Nat)

/-- The heap of a new process ends where its parent's does. -/
def sysStep (call : Call) (st : System) : Except Fatal (Except MmapError Nat × System) :=
  match call with
  | .op o => do
    let machine ← step o st.machine
    let heap := match o with
      | .clone r =>
        if r∈st.machine.roots then Function.update st.heap (machine.roots.headD 0) (st.heap r)
        else st.heap
      | _ => st.heap
    return (.ok 0, { machine, heap })
  | .mmapAnon r args =>
    if r∈st.machine.roots then mmapAnon r args st else .ok (.error .einval, st)
  | .mmapFile r args file offset =>
    if r∈st.machine.roots then mmapFile r args file offset st else .ok (.error .einval, st)
end RazionOS.Kernel
