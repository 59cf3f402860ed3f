import RazionOS.Kernel.Sys.Credentials

/-!
# Ownership of files

`chown_node` decides by the copy of the owner, the group and the mode that the node has; for a
descriptor the copy is as old as the descriptor.
-/

namespace RazionOS.Kernel.Chown

def eFault : Int := 14
def eBadf : Int := 9

def setIds : BitVec 32 := 0o6000
def execBits : BitVec 32 := 0o111

structure Attributes where
  uid : IdT
  gid : IdT
  mask : BitVec 32
deriving DecidableEq

/-- A slave of a pseudo-terminal has its attributes in the node itself. -/
inductive FileSystem where
  | tmpfs
  | ptySlave
  | ext2 (readwrite : Bool)
  | other
deriving DecidableEq

structure Process where
  user : IdT
  userGroup : IdT
  supplementaryGroups : List IdT

def currentGroupMatches (p : Process) (gid : IdT) : Bool :=
  gid=p.userGroup || p.supplementaryGroups.contains gid

def FileSystem.storedMask (fs : FileSystem) (mode : BitVec 32) : Option (BitVec 32) :=
  match fs with
  | .tmpfs => some mode
  | .ptySlave => some mode
  | .ext2 readwrite => if readwrite then some (mode &&& 0xfff) else none
  | .other => none

def chmodFs (fs : FileSystem) (mode : BitVec 32) (file : Attributes) : Attributes :=
  match fs.storedMask mode with
  | some mask => { file with mask }
  | none => file

def FileSystem.hasChown : FileSystem → Bool
  | .tmpfs => true
  | .ptySlave => true
  | .ext2 _ => false
  | .other => false

def chownFs (fs : FileSystem) (uid gid : IdT) (file : Attributes) : Int × Attributes :=
  if fs.hasChown then
    (0, { file with
      uid := if uid≠keepId then uid else file.uid
      gid := if gid≠keepId then gid else file.gid })
  else (-ePerm, file)

def chownNode (p : Process) (fs : FileSystem) (node : Attributes) (uid gid : IdT)
    (file : Attributes) : Int × Attributes :=
  if p.user≠userRootUid ∧ uid≠keepId ∧ uid≠node.uid then (-ePerm, file)
  else if p.user≠userRootUid ∧ gid≠keepId ∧ p.user≠node.uid then (-ePerm, file)
  else if p.user≠userRootUid ∧ gid≠keepId ∧ currentGroupMatches p gid=false then
    (-ePerm, file)
  else
    let file := if node.mask &&& execBits≠0 ∧ node.mask &&& setIds≠0 ∧ p.user≠userRootUid then
        chmodFs fs (node.mask &&& ~~~ setIds) file
      else file
    chownFs fs uid gid file

structure Files where
  attributes : Nat → Attributes
  fileSystem : Nat → FileSystem
  fds : Int → Option (Nat × Attributes)

def Files.set (files : Files) (i : Nat) (file : Attributes) : Files :=
  { files with attributes := Function.update files.attributes i file }

inductive Call where
  | chown (file : Option (List UInt8)) (uid gid : IdT)
  | lchown (file : Option (List UInt8)) (uid gid : IdT)
  | fchown (fd : Int) (uid gid : IdT)

section Calls

-- `kopen_error`: which file a path leads to, or which error, by whether the last link is not
-- followed
variable (kopenError : List UInt8 → Bool → Except Int Nat)

/-- Common body of `sys_chown` and `sys_lchown`. -/
def chownPath (nofollow : Bool) (p : Process) (file : Option (List UInt8)) (uid gid : IdT)
    (files : Files) : Int × Files :=
  match file with
  | none => (-eFault, files)
  | some path =>
    match kopenError path nofollow with
    | .error e => (-e, files)
    | .ok i =>
      let (ret, file) :=
        chownNode p (files.fileSystem i) (files.attributes i) uid gid (files.attributes i)
      (ret, files.set i file)

def sysChown (p : Process) (file : Option (List UInt8)) (uid gid : IdT) (files : Files) :
    Int × Files :=
  chownPath kopenError false p file uid gid files

def sysLchown (p : Process) (file : Option (List UInt8)) (uid gid : IdT) (files : Files) :
    Int × Files :=
  chownPath kopenError true p file uid gid files

def sysFchown (p : Process) (fd : Int) (uid gid : IdT) (files : Files) : Int × Files :=
  match files.fds fd with
  | none => (-eBadf, files)
  | some (i, node) =>
    let (ret, file) := chownNode p (files.fileSystem i) node uid gid (files.attributes i)
    (ret, files.set i file)

def step (p : Process) (call : Call) (files : Files) : Int × Files :=
  match call with
  | .chown file uid gid => sysChown kopenError p file uid gid files
  | .lchown file uid gid => sysLchown kopenError p file uid gid files
  | .fchown fd uid gid => sysFchown p fd uid gid files

def reachesPath (nofollow : Bool) (file : Option (List UInt8)) (files : Files) :
    Option (Nat × Attributes) :=
  match file with
  | none => none
  | some path =>
    match kopenError path nofollow with
    | .error _ => none
    | .ok i => some (i, files.attributes i)

def reaches (call : Call) (files : Files) : Option (Nat × Attributes) :=
  match call with
  | .chown file _ _ => reachesPath kopenError false file files
  | .lchown file _ _ => reachesPath kopenError true file files
  | .fchown fd _ _ => files.fds fd

def Call.uid : Call → IdT
  | .chown _ uid _ => uid
  | .lchown _ uid _ => uid
  | .fchown _ uid _ => uid

def Call.gid : Call → IdT
  | .chown _ _ gid => gid
  | .lchown _ _ gid => gid
  | .fchown _ _ gid => gid
end Calls

def Refused (p : Process) (node : Attributes) (uid gid : IdT) : Prop :=
  (uid≠keepId ∧ uid≠node.uid) ∨ (gid≠keepId ∧ (p.user≠node.uid ∨ currentGroupMatches p gid=false))

structure Spares (fs : FileSystem) (node : Attributes) (uid gid : IdT) (file : Attributes) :
    Prop where
  mode : node.mask &&& execBits≠0 → node.mask &&& setIds≠0 →
    ∀ mask, fs.storedMask (node.mask &&& ~~~ setIds)=some mask → mask=file.mask
  owner : fs.hasChown → uid=keepId ∨ uid=file.uid
  group : fs.hasChown → gid=keepId ∨ gid=file.gid

section Unchanged
variable {fs : FileSystem}

private theorem chmodFs_eq_self_iff :
    chmodFs fs mode file=file ↔ ∀ mask, fs.storedMask mode=some mask → mask=file.mask := by
  unfold chmodFs
  cases fs.storedMask mode with
  | none => simp
  | some mask =>
    constructor
    · intro heq mask' hm
      cases hm
      exact congrArg Attributes.mask heq
    · intro heq
      rw [heq mask rfl]

private theorem chmodFs_ids :
    (chmodFs fs mode file).uid=file.uid ∧ (chmodFs fs mode file).gid=file.gid := by
  unfold chmodFs
  cases fs.storedMask mode <;> exact ⟨rfl,rfl⟩

private theorem chownFs_mask : (chownFs fs uid gid file).2.mask=file.mask := by
  unfold chownFs
  split <;> rfl

private theorem chownFs_eq_self_iff : (chownFs fs uid gid file).2=file ↔
      (fs.hasChown → uid=keepId ∨ uid=file.uid) ∧
        (fs.hasChown → gid=keepId ∨ gid=file.gid) := by
  unfold chownFs
  by_cases hc : fs.hasChown
  · rw [if_pos hc]
    constructor
    · intro heq
      have hu := congrArg Attributes.uid heq
      have hg := congrArg Attributes.gid heq
      constructor
      · intro _
        by_cases hk : uid=keepId
        · exact .inl hk
        · rw [if_pos hk] at hu
          exact .inr hu
      · intro _
        by_cases hk : gid=keepId
        · exact .inl hk
        · rw [if_pos hk] at hg
          exact .inr hg
    · rintro ⟨hu,hg⟩
      have hu : (if uid≠keepId then uid else file.uid)=file.uid := by
        rcases hu hc with hk | heq
        · rw [if_neg (not_not.2 hk)]
        · rw [heq,ite_self]
      have hg : (if gid≠keepId then gid else file.gid)=file.gid := by
        rcases hg hc with hk | heq
        · rw [if_neg (not_not.2 hk)]
        · rw [heq,ite_self]
      rw [hu,hg]
  · simp [hc]

private theorem chownFs_chmodFs_eq_self_iff : (chownFs fs uid gid (chmodFs fs mode file)).2=file ↔
      chmodFs fs mode file=file ∧ (chownFs fs uid gid file).2=file := by
  constructor
  · intro heq
    have hm : (chmodFs fs mode file).mask=file.mask := by
      rw [← chownFs_mask,heq]
    have hc : chmodFs fs mode file=file := by
      obtain ⟨hu,hg⟩ := chmodFs_ids
      rcases hf : chmodFs fs mode file with ⟨u,g,m⟩
      rw [hf] at hu hg hm
      dsimp only at hu hg hm
      rw [hu,hg,hm]
    rw [hc] at heq
    exact ⟨hc,heq⟩
  · rintro ⟨hc,hch⟩
    rw [hc,hch]

private theorem chownNode_refused (hr : p.user≠userRootUid) (h : Refused p node uid gid) :
    chownNode p fs node uid gid file=(-ePerm, file) := by
  unfold chownNode
  rcases h with ⟨hk,hui⟩ | ⟨hk,hu | hg⟩
  · rw [if_pos ⟨hr,hk,hui⟩]
  · have hf : p.user≠userRootUid ∧ gid≠keepId ∧ p.user≠node.uid := ⟨hr,hk,hu⟩
    rw [if_pos hf,ite_self]
  · have hf : p.user≠userRootUid ∧ gid≠keepId ∧ currentGroupMatches p gid=false := ⟨hr,hk,hg⟩
    rw [if_pos hf,ite_self,ite_self]

private theorem chownNode_admitted (hr : p.user≠userRootUid) (h : ¬ Refused p node uid gid) :
    chownNode p fs node uid gid file=chownFs fs uid gid
      (if node.mask &&& execBits≠0 ∧ node.mask &&& setIds≠0 then
        chmodFs fs (node.mask &&& ~~~ setIds) file else file) := by
  unfold chownNode
  rw [if_neg (fun hf => h (.inl hf.2)),if_neg (fun hf => h (.inr ⟨hf.2.1,.inl hf.2.2⟩)),
    if_neg (fun hf => h (.inr ⟨hf.2.1,.inr hf.2.2⟩))]
  simp [hr]

private theorem chownNode_unchanged_iff (hro : p.user≠userRootUid) :
    (chownNode p fs node uid gid file).2=file ↔
      Refused p node uid gid ∨ Spares fs node uid gid file := by
  by_cases hr : Refused p node uid gid
  · rw [chownNode_refused hro hr]
    exact iff_of_true rfl (.inl hr)
  rw [chownNode_admitted hro hr,or_iff_right hr]
  by_cases hc : node.mask &&& execBits≠0 ∧ node.mask &&& setIds≠0
  · rw [if_pos hc,chownFs_chmodFs_eq_self_iff,chmodFs_eq_self_iff,chownFs_eq_self_iff]
    constructor
    · rintro ⟨hm,ho,hg⟩
      exact ⟨fun _ _ => hm,ho,hg⟩
    · intro h
      exact ⟨h.mode hc.1 hc.2,h.owner,h.group⟩
  · rw [if_neg hc,chownFs_eq_self_iff]
    constructor
    · rintro ⟨ho,hg⟩
      exact ⟨fun hexec hs => absurd ⟨hexec,hs⟩ hc,ho,hg⟩
    · intro h
      exact ⟨h.owner,h.group⟩

structure Strips (fs : FileSystem) (uid gid : IdT) (file : Attributes) : Prop where
  group : gid=keepId
  owner : uid=keepId ∨ uid=file.uid
  exec : file.mask &&& execBits≠0
  setId : file.mask &&& setIds≠0
  chmod : (fs.storedMask 0).isSome

private theorem storedMask_isSome : (fs.storedMask mode).isSome=(fs.storedMask 0).isSome := by
  cases fs with
  | tmpfs => rfl
  | ptySlave => rfl
  | ext2 readwrite => cases readwrite <;> rfl
  | other => rfl

private theorem storedMask_clear_ne (hs : mode &&& setIds≠0)
    (hm : fs.storedMask (mode &&& ~~~ setIds)=some mask) : mask≠mode := by
  have hc : mode &&& ~~~ setIds &&& setIds=0 := by
    rw [BitVec.and_assoc]
    exact BitVec.and_zero
  have hma : mask &&& setIds=0 := by
    cases fs with
    | tmpfs =>
      cases hm
      exact hc
    | ptySlave =>
      cases hm
      exact hc
    | ext2 readwrite =>
      cases readwrite with
      | false => cases hm
      | true =>
        cases hm
        rw [BitVec.and_assoc,BitVec.and_comm _ setIds,← BitVec.and_assoc,hc]
        exact BitVec.zero_and
    | other => cases hm
  rintro rfl
  exact hs hma

private theorem refused_or_spares_iff (ho : p.user≠file.uid) :
    Refused p file uid gid ∨ Spares fs file uid gid file ↔ ¬ Strips fs uid gid file := by
  constructor
  · rintro ((⟨hk,hu⟩ | ⟨hk,-⟩) | hsp) hs
    · exact hs.owner.elim hk hu
    · exact hk hs.group
    · have hso : (fs.storedMask (file.mask &&& ~~~ setIds)).isSome := by
        rw [storedMask_isSome]
        exact hs.chmod
      obtain ⟨mask,hm⟩ := Option.isSome_iff_exists.1 hso
      exact storedMask_clear_ne hs.setId hm (hsp.mode hs.exec hs.setId mask hm)
  · intro hs
    by_cases hg : gid=keepId
    · by_cases hu : uid=keepId ∨ uid=file.uid
      · refine .inr ⟨?_,fun _ => hu,fun _ => .inl hg⟩
        intro hexec hse mask hm
        have hso : (fs.storedMask 0).isSome := by
          rw [← storedMask_isSome,hm]
          rfl
        exact absurd ⟨hg,hu,hexec,hse,hso⟩ hs
      · exact .inl (.inl (not_or.1 hu))
    · exact .inl (.inr ⟨hg,.inl ho⟩)
end Unchanged

section Calls
variable (kopenError : List UInt8 → Bool → Except Int Nat) (p : Process) (files : Files) (i : Nat)

def afterCall (target : Option (Nat × Attributes)) (uid gid : IdT) : Attributes :=
  match target with
  | some (j, node) =>
    if i=j then (chownNode p (files.fileSystem i) node uid gid (files.attributes i)).2
    else files.attributes i
  | none => files.attributes i

theorem set_chownNode : (files.set j
      (chownNode p (files.fileSystem j) node uid gid (files.attributes j)).2).attributes i
      = afterCall p files i (some (j, node)) uid gid := by
  simp only [Files.set,Function.update_apply,afterCall]
  by_cases hij : i=j
  · rw [if_pos hij,if_pos hij,hij]
  · rw [if_neg hij,if_neg hij]

private theorem chownPath_attributes :
    (chownPath kopenError nofollow p file uid gid files).2.attributes i =
      afterCall p files i (reachesPath kopenError nofollow file files) uid gid := by
  cases file with
  | none => rfl
  | some path =>
    simp only [chownPath,reachesPath]
    cases kopenError path nofollow with
    | error e => rfl
    | ok j => exact set_chownNode p files i

private theorem step_attributes : (step kopenError p call files).2.attributes i =
      afterCall p files i (reaches kopenError call files) call.uid call.gid := by
  cases call with
  | chown file uid gid => exact chownPath_attributes kopenError p files i
  | lchown file uid gid => exact chownPath_attributes kopenError p files i
  | fchown fd uid gid =>
    simp only [step,sysFchown,reaches]
    cases files.fds fd with
    | none => rfl
    | some target => exact set_chownNode p files i
end Calls

/-- A caller that is neither root nor the owner leaves a file as it is exactly if the call is about
another file or does not strip it of its set-id bits, or an old copy of the attributes refuses it.
-/
theorem chown_unchanged_iff (kopenError : List UInt8 → Bool → Except Int Nat) (p : Process)
    (call : Call) (files : Files) (i : Nat) (hroot : p.user ≠ userRootUid)
    (hown : p.user ≠ (files.attributes i).uid) :
    (step kopenError p call files).2.attributes i = files.attributes i ↔
      ∀ node, reaches kopenError call files = some (i, node) → if node = files.attributes i then
          ¬ Strips (files.fileSystem i) call.uid call.gid (files.attributes i)
        else Refused p node call.uid call.gid ∨
          Spares (files.fileSystem i) node call.uid call.gid (files.attributes i) := by
  rw [step_attributes]
  cases ht : reaches kopenError call files with
  | none => simp [afterCall]
  | some target =>
    obtain ⟨j,node⟩ := target
    by_cases hij : i=j
    · subst hij
      have ha : afterCall p files i (some (i, node)) call.uid call.gid =
          (chownNode p _ node call.uid call.gid _).2 :=
        if_pos rfl
      rw [ha,chownNode_unchanged_iff hroot]
      have ho : (∀ node', some (i, node)=some (i, node') →
          if node' = files.attributes i then
            ¬ Strips (files.fileSystem i) call.uid call.gid (files.attributes i)
          else Refused p node' call.uid call.gid ∨
            Spares (files.fileSystem i) node' call.uid call.gid (files.attributes i)) ↔
          if node=files.attributes i then
            ¬ Strips (files.fileSystem i) call.uid call.gid (files.attributes i)
          else Refused p node call.uid call.gid ∨
            Spares (files.fileSystem i) node call.uid call.gid (files.attributes i) := by
        constructor
        · intro hal
          exact hal node rfl
        · intro hn node' heq
          cases heq
          exact hn
      rw [ho]
      by_cases hc : node=files.attributes i
      · rw [if_pos hc,hc,refused_or_spares_iff hown]
      · rw [if_neg hc]
    · have ha : afterCall p files i (some (j, node)) call.uid call.gid=files.attributes i :=
        if_neg hij
      rw [ha]
      refine iff_of_true rfl fun node' heq => ?_
      cases heq
      exact absurd rfl hij

def setuidProgram : Files where
  attributes := fun _ => ⟨1000,1000,0o4755⟩
  fileSystem := fun _ => .tmpfs
  fds := fun _ => none

theorem chown_unchanged_iff_setuidProgram :
    (step (fun _ _ => .ok 0) ⟨1001,1001,[]⟩ (.chown (some [0x61]) (-1) 1001)
        setuidProgram).2.attributes 0 = setuidProgram.attributes 0 := by
  rw [chown_unchanged_iff _ _ _ _ _ (by decide) (by decide)]
  intro node heq
  cases heq
  intro hs
  exact absurd hs.group (by decide)

/-- A call that changes nothing, by anyone, strips the program of the bit. -/
theorem chown_strips_setuidProgram :
    (step (fun _ _ => .ok 0) ⟨1001,1001,[]⟩ (.chown (some [0x61]) (-1) (-1))
        setuidProgram).2.attributes 0 = ⟨1000,1000,0o755⟩ := by
  decide
end RazionOS.Kernel.Chown
