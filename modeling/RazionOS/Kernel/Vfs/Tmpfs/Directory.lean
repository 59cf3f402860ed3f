import RazionOS.Framework.CString

/-!
# tmpfs directories

The nodes of one mount live in a heap of numbered cells, which stand for the pointers to them.
A call on a cell that is not a directory is refused (`none`), as the path lookup before the call
would have failed.
-/

namespace RazionOS.Kernel
open Framework

inductive NodeType where
  | file
  | dir
  | link
  deriving DecidableEq

/-- The fields of both structures that the directory operations use. -/
structure TmpfsNode where
  name : CString
  type : NodeType
  files : List Nat
  parent : Option Nat

structure Tmpfs where
  nodes : Nat → Option TmpfsNode
  next : Nat

def Tmpfs.root : Nat := 0

def Tmpfs.create : Tmpfs :=
  { nodes := fun i => if i=Tmpfs.root then some ⟨[],.dir,[],none⟩ else none
    next := 1 }

def Tmpfs.update (s : Tmpfs) (i : Nat) (f : TmpfsNode → TmpfsNode) : Tmpfs :=
  { s with nodes := fun j => if j=i then (s.nodes i).map f else s.nodes j }

def Tmpfs.setFiles (s : Tmpfs) (d : Nat) (f : List Nat → List Nat) : Tmpfs :=
  s.update d fun node => { node with files := f node.files }

def Tmpfs.setName (s : Tmpfs) (i : Nat) (name : CString) : Tmpfs :=
  s.update i fun node => { node with name := name }

def Tmpfs.free (s : Tmpfs) (i : Nat) : Tmpfs :=
  { s with nodes := fun j => if j=i then none else s.nodes j }

def Tmpfs.insert (s : Tmpfs) (d : Nat) (node : TmpfsNode) : Tmpfs :=
  let s' : Tmpfs :=
    { nodes := fun j => if j=s.next then some node else s.nodes j, next := s.next+1 }
  s'.setFiles d (· ++ [s.next])

def Tmpfs.lookup (s : Tmpfs) (dir : TmpfsNode) (test : CString → Bool) : Option Nat :=
  dir.files.find? fun i => (s.nodes i).any fun node => test node.name

def errNoEnt : Int := -2
def errAcces : Int := -13
def errExist : Int := -17
def errNotDir : Int := -20
def errIsDir : Int := -21
def errInval : Int := -22
def errNotEmpty : Int := -90

section Operations
variable (s : Tmpfs) (d : Nat) (dir : TmpfsNode)

def createTmpfs (name : CString) : Int × Tmpfs :=
  if (s.lookup dir (· == name)).isSome then (errExist, s)
  else (0, s.insert d ⟨name,.file,[],none⟩)

def symlinkTmpfs (name : CString) : Int × Tmpfs :=
  if (s.lookup dir (· == name)).isSome then (errExist, s)
  else (0, s.insert d ⟨name,.link,[],none⟩)

/-- `mkdir_tmpfs`, for the outcome of the permission test on the parent. -/
def mkdirTmpfs (name : CString) (permitted : Bool) : Int × Tmpfs :=
  if name=[] then (errInval, s)
  else if (s.lookup dir (· == name)).isSome then (errExist, s)
  else if !permitted then (errAcces, s)
  else (0, s.insert d ⟨name,.dir,[],some d⟩)

def unlinkTmpfs (name : CString) : Int × Tmpfs :=
  match s.lookup dir (· == name) with
  | none => (errNoEnt, s)
  | some i =>
    if (s.nodes i).any fun node => node.type == .dir && !node.files.isEmpty then (errNotEmpty, s)
    else (0, (s.free i).setFiles d (·.erase i))
end Operations

def slash : UInt8 := 47

/-- `path_comp`; true when the first components are the same. -/
def pathComp : CString → CString → Bool
  | [], [] => true
  | [], b::_ => b == slash
  | a::_, [] => a == slash
  | a::as, b::bs =>
    if a≠slash ∧ b≠slash then a == b && pathComp as bs else a == slash && b == slash

def endswith (str : CString) (ch : UInt8) : Bool := 1 < str.length && str.getLast? == some ch
def pathDup (path : CString) : CString := path.takeWhile (· ≠ slash)

def Tmpfs.typeIs (s : Tmpfs) (i : Nat) (type : NodeType) : Bool :=
  (s.nodes i).any fun node => node.type == type

/-- The walk of `parent` fields in `rename_tmpfs`: whether it meets `src`, and `none` where it reads
a directory that has been freed. A directory is older than those made in it, so the cell number
bounds the length of the walk. -/
def meetsParent (s : Tmpfs) (src : Nat) : Nat → Option Nat → Option Bool
  | _, none => some false
  | 0, some _ => none
  | n+1, some pd =>
    if pd=src then some true else (s.nodes pd).bind fun node => meetsParent s src n node.parent

/-- The end of `rename_tmpfs`, for the entries that have been found. -/
def moveEntry (s : Tmpfs) (ds src dd : Nat) (dest : Option Nat) (destName : CString) :
    Int × Tmpfs :=
  match dest with
  | none =>
    if endswith destName slash && !s.typeIs src .dir then (errNotDir, s)
    else
      (0, ((s.setName src (pathDup destName)).setFiles dd (· ++ [src])).setFiles ds (·.erase src))
  | some t =>
    if src=t then (0, s)
    else if (s.nodes t).any fun node => node.type == .dir && !node.files.isEmpty then
      (errNotEmpty, s)
    else if s.typeIs t .dir && !s.typeIs src .dir then (errIsDir, s)
    else if !s.typeIs t .dir && s.typeIs src .dir then (errNotDir, s)
    else
      (0, (((s.setName src (pathDup destName)).setFiles ds (·.erase src)).setFiles dd
        fun files => files.map fun i => if i=t then src else i).free t)

/-- `rename_tmpfs`, from directory `ds` to directory `dd`. -/
def renameTmpfs (s : Tmpfs) (ds : Nat) (sdir : TmpfsNode) (srcName : CString) (dd : Nat)
    (ddir : TmpfsNode) (destName : CString) : Option (Int × Tmpfs) :=
  match s.lookup sdir (pathComp srcName) with
  | none => some (errNoEnt, s)
  | some src =>
    if !s.typeIs src .dir && endswith srcName slash then some (errNotDir, s)
    else
      let dest := s.lookup ddir (pathComp destName)
      if dest.any (fun t => !s.typeIs t .dir) && endswith destName slash then
        some (errNotDir, s)
      else
        (if s.typeIs src .dir then meetsParent s src (dd+1) (some dd) else some false).map
          fun below => if below then (errInval, s) else moveEntry s ds src dd dest destName

inductive TmpfsCall where
  | create (d : Nat) (name : CString)
  | symlink (d : Nat) (name : CString)
  | mkdir (d : Nat) (name : CString) (permitted : Bool)
  | unlink (d : Nat) (name : CString)
  | rename (ds : Nat) (srcName : CString) (dd : Nat) (destName : CString)

def Tmpfs.dir? (s : Tmpfs) (d : Nat) : Option TmpfsNode :=
  (s.nodes d).filter fun node => node.type == .dir

def tmpfsStep (s : Tmpfs) : TmpfsCall → Option (Int × Tmpfs)
  | .create d name => (s.dir? d).map fun dir => createTmpfs s d dir name
  | .symlink d name => (s.dir? d).map fun dir => symlinkTmpfs s d dir name
  | .mkdir d name permitted => (s.dir? d).map fun dir => mkdirTmpfs s d dir name permitted
  | .unlink d name => (s.dir? d).map fun dir => unlinkTmpfs s d dir name
  | .rename ds srcName dd destName =>
    (s.dir? ds).bind fun sdir => (s.dir? dd).bind fun ddir =>
      renameTmpfs s ds sdir srcName dd ddir destName
end RazionOS.Kernel
