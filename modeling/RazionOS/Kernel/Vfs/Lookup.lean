import RazionOS.Kernel.Vfs.Path

/-!
# Lookup in the virtual file system

Nodes with their reference counts, the walk of `kopen_recur` through mount points, directories and
symbolic links, and the calls that work on the parent directory of a path.
-/

namespace RazionOS.Kernel.Vfs
open Framework Function

namespace Errno

def perm : Int := 1
def noEnt : Int := 2
def acces : Int := 13
def fault : Int := 14
def exist : Int := 17
def xDev : Int := 18
def notDir : Int := 20
def inval : Int := 22
def roFs : Int := 30
def loop : Int := 92
def notSup : Int := 134
end Errno

def wOk : Nat := 2
def xOk : Nat := 1
def maxSymlinkDepth : Nat := 8

/-- The fields of a node that do not change while it is open, and its operations. -/
structure Attr where
  inode : Nat
  directory : Bool
  symlink : Bool
  mask : Nat
  uid : Nat
  gid : Nat
  mount : Option Nat
  hasFinddir : Bool
  hasReadlink : Bool
  hasCreate : Bool
  hasUnlink : Bool
  hasMkdir : Bool
  hasSymlink : Bool
  hasRename : Bool

inductive FsOp where
  | create
  | mkdir
  | symlink
  | unlink
  | rename
deriving DecidableEq

structure FsCall where
  op : FsOp
  parent : Nat
  name : CString
deriving DecidableEq

/-- The nodes in memory. A node that is not in use has no reference count. -/
structure State where
  attr : Nat → Attr
  refcount : Nat → Option Int
  next : Nat
  calls : List FsCall

inductive Found where
  | fresh (attr : Attr)
  | existing (node : Nat)

inductive Mount where
  | entry (file : Option Nat) (children : List (CString × Mount))

/-- The file systems. An operation that makes a node gives its fields, or an error. -/
structure Fs where
  root : Nat
  mounts : List (CString × Mount)
  finddir : Nat → CString → Option Found
  /-- The length that is returned, and the string in the buffer. -/
  readlink : Nat → Int × CString
  create : Nat → CString → Nat → Except Int Attr
  mkdir : Nat → CString → Nat → Except Int Attr
  unlink : Nat → CString → Int
  symlink : Nat → CString → CString → Int
  rename : Nat → Nat → CString → Nat → CString → Int

structure Process where
  user : Nat
  userGroup : Nat
  realUser : Nat
  realUserGroup : Nat
  supplementaryGroups : List Nat
  wdName : CString
  wdNode : Nat

/-- The bit 010 asks for the real ids. -/
def hasPermission (proc : Process) (node : Attr) (permissionBit : Nat) : Bool :=
  let real := permissionBit &&& 8 != 0
  let whom := if real then proc.realUser else proc.user
  let whomg := if real then proc.realUserGroup else proc.userGroup
  let permissionBit := if real then permissionBit ^^^ 8 else permissionBit
  if whom=0 ∧ (permissionBit &&& 1=0 ∨ node.directory) then true
  else
    let other := node.mask &&& 7
    let user := if whom=node.uid then node.mask >>> 6 &&& 7 else 0
    let group :=
      if whomg=node.gid ∨ node.gid∈proc.supplementaryGroups then node.mask >>> 3 &&& 7 else 0
    permissionBit &&& (other ||| user ||| group)=permissionBit

def openFs (node : Nat) (st : State) : State :=
  let count := (st.refcount node).map fun n => if 0≤n then n+1 else n
  { st with refcount := update st.refcount node count }

def closeFs (node : Nat) (st : State) : State :=
  match st.refcount node with
  | none => st
  | some n =>
    if n<0 then st
    else if n-1=0 then { st with refcount := update st.refcount node none }
    else { st with refcount := update st.refcount node (some (n-1)) }

/-- A node from `malloc`, with its fields set and a reference count of 0. -/
def newNode (attr : Attr) (st : State) : Nat × State :=
  (st.next, { st with
    attr := update st.attr st.next attr
    refcount := update st.refcount st.next (some 0)
    next := st.next+1 })

def finddirFs (fs : Fs) (node : Nat) (name : CString) (st : State) : Option Nat × State :=
  let attr := st.attr node
  if !attr.directory || !attr.hasFinddir then (none, st)
  else
    match fs.finddir attr.inode name with
    | none => (none, st)
    | some (.existing node) => (some node, st)
    | some (.fresh attr) =>
      let (node, st) := newNode attr st
      (some node, st)

def readlinkFs (fs : Fs) (node : Attr) : Int × CString :=
  if node.hasReadlink then fs.readlink node.inode else (-Errno.inval, [])

/-- The loop of `get_mount_point`: the last node that is mounted on the way, and the names after
it. -/
def mountLoop : List (CString × Mount) → List CString → Nat → List CString → Nat × List CString
  | _, [], last, outpath => (last, outpath)
  | children, name::path, last, outpath =>
    match children.lookup name with
    | none => (last, outpath)
    | some (.entry none children) => mountLoop children path last outpath
    | some (.entry (some file) children) => mountLoop children path file path

def getMountPoint (fs : Fs) (path : List CString) : Nat × List CString :=
  mountLoop fs.mounts path fs.root path

/-- `path_untokenize` up to the directory of the name at the given depth. -/
def pathUntokenize (path : List CString) (depth : Nat) : CString :=
  (path.take (depth-1)).flatMap (pathSeparator :: ·)

abbrev Result := Except Int Nat × State

section Kopen
variable (fs : Fs) (proc : Process)

/-- The end of a round in `kopen_recur`: from a directory to the node with a name. -/
def enter (node : Nat) (name : CString) (st : State) : Result :=
  if !(st.attr node).directory then (.error Errno.notDir, closeFs node st)
  else if !hasPermission proc (st.attr node) xOk then (.error Errno.acces, closeFs node st)
  else
    let (next, st) := finddirFs fs node name st
    let st := closeFs node st
    match next with
    | none => (.error Errno.noEnt, st)
    | some next => (.ok next, openFs next st)

/-- What is left of `kopen_recur` after one more symbolic link. -/
structure Level where
  /-- A call for the target of a link, relative to the directory of the link. -/
  recur : CString → CString → State → Result
  /-- The rest of the round and of the loop, for the node that a link leads to. -/
  rest : Bool → List CString → List CString → Nat → State → Result

/-- The loop of `kopen_recur`. `lower` is for after the next link, if there may be one more. -/
def kopenLoop (lower : Option Level) (nofollow : Bool) (path : List CString) :
    List CString → Nat → State → Result
  | left, node, st =>
    if (st.attr node).symlink && !(nofollow && left.isEmpty) then
      match lower with
      | none => (.error Errno.loop, closeFs node st)
      | some lower =>
        let (len, target) := readlinkFs fs (st.attr node)
        let st := closeFs node st
        if len<0 then (.error (-len), st)
        else if len=0 then (.error Errno.noEnt, st)
        else
          match lower.recur target (pathUntokenize path (path.length-left.length)) st with
          | (.error error, st) => (.error error, st)
          | (.ok node, st) => lower.rest nofollow path left node st
    else
      match left with
      | [] => (.ok node, st)
      | name::left =>
        match enter fs proc node name st with
        | (.error error, st) => (.error error, st)
        | (.ok node, st) => kopenLoop lower nofollow path left node st

def kopenStart (lower : Option Level) (nofollow : Bool) (filename relativeTo : CString)
    (st : State) : Result :=
  let path := names relativeTo filename
  if path=[] then (.ok fs.root, openFs fs.root st)
  else
    let (node, left) := getMountPoint fs path
    kopenLoop fs proc lower nofollow path left node (openFs node st)

def afterLink (lower : Option Level) (nofollow : Bool) (path : List CString) (left : List CString)
    (node : Nat) (st : State) : Result :=
  match left with
  | [] => (.ok node, st)
  | name::left =>
    match enter fs proc node name st with
    | (.error error, st) => (.error error, st)
    | (.ok node, st) => kopenLoop fs proc lower nofollow path left node st

def level : Nat → Option Level
  | 0 => none
  | links+1 => some ⟨kopenStart fs proc (level links) false,afterLink fs proc (level links)⟩

def kopenRecur (nofollow : Bool) (symlinkDepth : Nat) (filename relativeTo : CString) (st : State) :
    Result :=
  kopenStart fs proc (level fs proc (maxSymlinkDepth-symlinkDepth)) nofollow filename relativeTo st

def kopenError (nofollow : Bool) (filename : CString) (st : State) : Result :=
  kopenRecur fs proc nofollow 0 filename proc.wdName st
end Kopen

section Calls
variable (fs : Fs) (proc : Process)

def fileGetParent (path : CString) (st : State) : Result :=
  kopenError fs proc false (parentPath path) st

/-- The test of a name from `fs_basename`. -/
def noName (name : CString) : Bool := name.isEmpty || name.head? == some pathSeparator

def logCall (op : FsOp) (parent : Attr) (name : CString) (st : State) : State :=
  { st with calls := ⟨op,parent.inode,name⟩::st.calls }

/-- The value that is returned, and the fields of the node for `out`. -/
abbrev NodeOp := Attr → CString → Int × Option Attr

def runOp (op : FsOp) (run : NodeOp) (parent : Attr) (name : CString) (st : State) : Int × State :=
  let st := logCall op parent name st
  match run parent name with
  | (ret, none) => (ret, st)
  | (ret, some attr) => (ret, (newNode attr st).2)

/-- What `create_file_fs`, `unlink_fs` and `mkdir_fs` share. `mkdir_fs` leaves the permissions to
the file system. -/
def inParent (op : FsOp) (checked : Bool) (hasOp : Attr → Bool) (invalid : Int) (run : NodeOp)
    (before : UInt8) (name : CString) (st : State) : Int × State :=
  match fileGetParent fs proc name st with
  | (.error error, st) => (-error, st)
  | (.ok parent, st) =>
    let attr := st.attr parent
    if checked && !hasPermission proc attr (wOk ||| xOk) then (-Errno.acces, closeFs parent st)
    else if !hasOp attr then (-Errno.roFs, closeFs parent st)
    else
      let src := fsBasename before name
      if noName src then (-invalid, closeFs parent st)
      else
        let (ret, st) := runOp op run attr src st
        (ret, closeFs parent st)

def made (out : Bool) : Except Int Attr → Int × Option Attr
  | .error ret => (ret, none)
  | .ok attr => (0, if out then some attr else none)

def createFileFs (before : UInt8) (name : CString) (permission : Nat) (st : State) : Int × State :=
  inParent fs proc .create true Attr.hasCreate Errno.inval
    (fun parent src => made true (fs.create parent.inode src permission)) before name st

def unlinkFs (before : UInt8) (name : CString) (st : State) : Int × State :=
  inParent fs proc .unlink true Attr.hasUnlink Errno.inval
    (fun parent src => (fs.unlink parent.inode src, none)) before name st

/-- `sys_mkdir` passes no place for the node. -/
def mkdirFs (out : Bool) (before : UInt8) (name : CString) (permission : Nat) (st : State) :
    Int × State :=
  inParent fs proc .mkdir false Attr.hasMkdir Errno.exist
    (fun parent src => made out (fs.mkdir parent.inode src permission)) before name st

/-- The parent stays open when there is no name. -/
def symlinkFs (before : UInt8) (target name : CString) (st : State) : Int × State :=
  match fileGetParent fs proc name st with
  | (.error error, st) => (-error, st)
  | (.ok parent, st) =>
    let attr := st.attr parent
    if !hasPermission proc attr (wOk ||| xOk) then (-Errno.acces, closeFs parent st)
    else if !attr.hasSymlink then (-Errno.perm, closeFs parent st)
    else
      let src := fsBasename before name
      if noName src then (-Errno.inval, st)
      else
        let run : NodeOp := fun parent src => (fs.symlink parent.inode target src, none)
        let (ret, st) := runOp .symlink run attr src st
        (ret, closeFs parent st)

/-- `rename_file_fs` between opening and closing the two parents. -/
def renameOut (before : UInt8) (src dest : CString) (srcParent destParent : Nat) (st : State) :
    Int × State :=
  let srcAttr := st.attr srcParent
  let destAttr := st.attr destParent
  match srcAttr.mount with
  | none => (-Errno.roFs, st)
  | some mount =>
    if destAttr.mount≠some mount then (-Errno.xDev, st)
    else if !(st.attr mount).hasRename then (-Errno.notSup, st)
    else if !hasPermission proc srcAttr (wOk ||| xOk) then (-Errno.acces, st)
    else if !hasPermission proc destAttr (wOk ||| xOk) then (-Errno.acces, st)
    else
      let srcName := fsBasename before src
      let destName := fsBasename before dest
      if noName srcName || noName destName then (-Errno.inval, st)
      else
        let ret := fs.rename (st.attr mount).inode srcAttr.inode srcName destAttr.inode destName
        (ret, logCall .rename srcAttr srcName st)

def renameFileFs (before : UInt8) (src dest : CString) (st : State) : Int × State :=
  if src=[] ∨ dest=[] then (-Errno.noEnt, st)
  else
    match fileGetParent fs proc src st with
    | (.error error, st) => (-error, st)
    | (.ok srcParent, st) =>
      match fileGetParent fs proc dest st with
      | (.error error, st) => (-error, closeFs srcParent st)
      | (.ok destParent, st) =>
        let (out, st) := renameOut fs proc before src dest srcParent destParent st
        (out, closeFs srcParent (closeFs destParent st))

/-- A pointer that is not valid is `none`. The node stays open when it is not a directory. -/
def sysChdir (newdir : Option CString) (st : State) : Int × Process × State :=
  match newdir with
  | none => (-Errno.fault, proc, st)
  | some newdir =>
    let path := canonicalizePath proc.wdName newdir
    match kopenError fs proc false path st with
    | (.error error, st) => (-error, proc, st)
    | (.ok chd, st) =>
      if !(st.attr chd).directory then (-Errno.notDir, proc, st)
      else if !hasPermission proc (st.attr chd) xOk then (-Errno.acces, proc, closeFs chd st)
      else (0, { proc with wdNode := chd, wdName := path }, closeFs proc.wdNode st)
end Calls
end RazionOS.Kernel.Vfs
