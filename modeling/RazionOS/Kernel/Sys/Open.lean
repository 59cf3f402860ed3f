import RazionOS.Kernel.Vfs.Lookup

/-!
# Opening a file

`sys_open` from the node that was found for the path, or created there, to the descriptor. Every
check comes with the node that the checks before it have left.
-/

namespace RazionOS.Kernel.Open
open Vfs

def rOk : Nat := 4
def eIsDir : Int := 21

inductive Fault where
  | nullPointer

structure Flags where
  wronly : Bool
  rdwr : Bool
  append : Bool
  creat : Bool
  trunc : Bool
  excl : Bool
  nofollow : Bool
  directory : Bool
  cloexec : Bool
  clofork : Bool

structure Node where
  attr : Attr
  /-- The length the file had when the node was made. -/
  length : Nat

structure Fd where
  node : Node
  read : Bool
  write : Bool
  cloexec : Bool
  clofork : Bool
  offset : Nat

structure Outcome where
  /-- What the call returns, or the entry of the descriptor. -/
  result : Except Int Fd
  truncated : Bool

def refuse (errno : Int) : Outcome := ⟨.error (-errno),false⟩

section
variable (proc : Process) (flags : Flags)

/-- From the checks of the permissions on. -/
def openNode (error : Int) (node : Option Node) : Outcome :=
  let read := !flags.wronly || flags.rdwr
  let write := flags.rdwr || flags.wronly
  let truncated := flags.trunc && node.isSome
  if read && node.any fun node => !hasPermission proc node.attr rOk then refuse Errno.acces
  else if write && node.any fun node => !hasPermission proc node.attr wOk then refuse Errno.acces
  else if write && node.any fun node => node.attr.directory then refuse eIsDir
  else if flags.directory && node.any fun node => !node.attr.directory then refuse Errno.notDir
  else if truncated && !write then refuse Errno.inval
  else match node with
    | none => ⟨.error (-error),truncated⟩
    | some node =>
      if flags.creat && node.attr.directory then ⟨.error (-eIsDir),truncated⟩
      else
        let offset := if flags.append then node.length else 0
        ⟨.ok ⟨node,read,write,flags.cloexec,flags.clofork,offset⟩,truncated⟩

def checkLink (error : Int) (node : Option Node) : Except Fault Outcome :=
  if flags.nofollow then
    match node with
    | none => .error .nullPointer
    | some node =>
      .ok (if node.attr.symlink then refuse Errno.loop else openNode proc flags error (some node))
  else .ok (openNode proc flags error node)

/-- The node or the error of `kopen_error`, and what `create_file_fs` would return. -/
def sysOpen (resolved created : Except Int Node) : Except Fault Outcome :=
  match resolved with
  | .ok node =>
    if flags.creat && flags.excl then .ok (refuse Errno.exist)
    else checkLink proc flags 0 (some node)
  | .error error =>
    if flags.creat then
      match created with
      | .error result => .ok ⟨.error result,false⟩
      | .ok node => checkLink proc flags error (some node)
    else checkLink proc flags error none
end

/-- Whether the flags ask for reading and for writing. -/
def Flags.requested (flags : Flags) : Bool × Bool :=
  match flags.wronly, flags.rdwr with
  | false, false => (true, false)
  | true, false => (false, true)
  | _, true => (true, true)

structure Granted (proc : Process) (flags : Flags) (fd : Fd) : Prop where
  requested : (fd.read, fd.write)=flags.requested
  read : fd.read → hasPermission proc fd.node.attr rOk
  write : fd.write → hasPermission proc fd.node.attr wOk
  offset : fd.offset=if flags.append then fd.node.length else 0

/-- A descriptor is for this node, with the modes asked for. A call that fails truncates nothing. -/
structure Decides (proc : Process) (flags : Flags) (node : Option Node) (outcome : Outcome) :
    Prop where
  granted : ∀ fd, outcome.result = .ok fd →
    node=some fd.node ∧ Granted proc flags fd ∧ outcome.truncated=flags.trunc
  failed : ∀ e, outcome.result = .error e → outcome.truncated=false

/-- The node that is found or created. -/
def target (flags : Flags) (resolved created : Except Int Node) : Option Node :=
  match resolved with
  | .ok node => some node
  | .error _ => if flags.creat then created.toOption else none

theorem error_decides : Decides proc flags node ⟨.error e,false⟩ :=
  ⟨fun _ h => absurd h (by simp),fun _ _ => rfl⟩

theorem refuse_decides : Decides proc flags node (refuse errno) := error_decides

section
variable (proc : Process) (flags : Flags) (error : Int)
include proc flags error

theorem openNode_decides : Decides proc flags node (openNode proc flags error node) := by
  unfold openNode
  dsimp only
  split
  · exact refuse_decides
  split
  · exact refuse_decides
  split
  · exact refuse_decides
  split
  · exact refuse_decides
  split
  · exact refuse_decides
  next htrunc =>
  cases node with
  | none =>
    simp only [Option.isSome_none,Bool.and_false]
    exact error_decides
  | some node =>
    simp only [Option.isSome_some,Bool.and_true] at htrunc ⊢
    split
    · -- a directory is not opened for writing, and so is not truncated
      obtain ht : flags.trunc=false := by grind
      rw [ht]
      exact error_decides
    · refine ⟨fun fd hfd => ?_,fun _ h => absurd h (by simp)⟩
      obtain rfl := Except.ok.inj hfd
      refine ⟨rfl,⟨?_,?_,?_,rfl⟩,rfl⟩
      · cases h1 : flags.wronly <;> cases h2 : flags.rdwr <;> simp [Flags.requested,h1,h2]
      · grind
      · grind

private theorem openNode_none : openNode proc flags error none=⟨.error (-error),false⟩ := by
  simp [openNode]

private theorem checkLink_some : ∃ outcome, checkLink proc flags error (some node) = .ok outcome ∧
      Decides proc flags (some node) outcome := by
  simp only [checkLink]
  split
  · refine ⟨_,rfl,?_⟩
    split
    · exact refuse_decides
    · exact openNode_decides ..
  · exact ⟨_,rfl,openNode_decides ..⟩

end

/-- The call uses no node that was not found, and decides by the one that was. -/
def OpensCorrectly (proc : Process) (flags : Flags) (resolved created : Except Int Node) : Prop :=
  ∃ outcome, sysOpen proc flags resolved created = .ok outcome ∧
    Decides proc flags (target flags resolved created) outcome ∧
    (resolved = .error Errno.noEnt → flags.creat=false → outcome.result = .error (-Errno.noEnt))

/-- `O_NOFOLLOW` without `O_CREAT` follows a null pointer if there is no file. -/
theorem sysOpen_decides_iff (proc : Process) (flags : Flags) (resolved created : Except Int Node) :
    OpensCorrectly proc flags resolved created ↔
      (flags.nofollow → flags.creat = false → resolved.toOption.isSome) := by
  rw [OpensCorrectly]
  cases resolved with
  | ok node =>
    refine iff_of_true ?_ fun _ _ => rfl
    simp only [sysOpen]
    split
    · exact ⟨_,rfl,refuse_decides,fun h => absurd h (by simp)⟩
    · obtain ⟨outcome,hok,hd⟩ := checkLink_some proc flags 0
      exact ⟨outcome,hok,hd,fun h => absurd h (by simp)⟩
  | error error =>
    simp only [sysOpen,target]
    cases hc : flags.creat with
    | true =>
      refine iff_of_true ?_ fun _ h => absurd h (by simp)
      cases created with
      | error result => exact ⟨_,rfl,error_decides,fun _ h => absurd h (by simp)⟩
      | ok node =>
        obtain ⟨outcome,hok,hd⟩ := checkLink_some proc flags error
        exact ⟨outcome,hok,hd,fun _ h => absurd h (by simp)⟩
    | false =>
      simp only [checkLink]
      cases hn : flags.nofollow with
      | true => simp [Except.toOption]
      | false =>
        refine iff_of_true ⟨_,rfl,openNode_decides ..,fun he _ => ?_⟩ fun h => absurd h (by simp)
        rw [openNode_none,Except.error.inj he]

def readNofollow : Flags := ⟨false,false,false,false,false,false,true,false,false,false⟩

theorem sysOpen_follows_null : let proc : Process := ⟨0,0,0,0,[],[],0⟩
    let missing : Except Int Node := .error Errno.noEnt
    sysOpen proc readNofollow missing missing = .error .nullPointer ∧
      ¬OpensCorrectly proc readNofollow missing missing :=
  ⟨rfl,fun ⟨_,h,_⟩ => absurd h (by simp [sysOpen,checkLink,readNofollow])⟩
end RazionOS.Kernel.Open
