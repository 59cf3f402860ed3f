import Mathlib.Data.Finset.Basic

/-!
# Process credentials

The six calls that change the real, effective and saved ids of a process. The uid and the
gid calls share their shape; all of them ask whether the effective *uid* is root, also when
it is a group that changes.
-/

namespace RazionOS.Kernel
open List

/-- Both `uid_t` and `gid_t` are `int`; the calls only compare them for equality. -/
abbrev IdT := BitVec 32
def userRootUid : IdT := 0

/-- The value that `setresuid` and its siblings read as "leave this one alone". -/
def keepId : IdT := -1
def ePerm : Int := 1

structure Ids where
  real : IdT
  effective : IdT
  saved : IdT
  deriving DecidableEq, Repr

structure Credentials where
  uids : Ids
  gids : Ids
  deriving DecidableEq, Repr

def Ids.toFinset (ids : Ids) : Finset IdT := {ids.real, ids.effective, ids.saved}

variable (ids : Ids)

theorem Ids.mem_toFinset : x∈ids.toFinset ↔ x=ids.real ∨ x=ids.effective ∨ x=ids.saved := by
  simp [Ids.toFinset]

def Credentials.isRoot (p : Credentials) : Bool := p.uids.effective == userRootUid

/-- Common body of `sys_setuid` and `sys_setgid`, with the bare saved id of the source. -/
def setId (root : Bool) (ids : Ids) (new : IdT) : Int × Ids :=
  if root then (0, ⟨new,new,new⟩)
  else if new=ids.real ∨ ids.saved≠0 then (0, { ids with effective := new })
  else (-ePerm, ids)

def validId (root : Bool) (ids : Ids) (id : IdT) : Bool :=
  root || id == ids.real || id == ids.effective || id == ids.saved

def replaceId (new old : IdT) : IdT := if new≠keepId then new else old

def setResId (root : Bool) (ids : Ids) (r e s : IdT) : Int × Ids :=
  if r≠keepId ∧ !validId root ids r then (-ePerm, ids)
  else if e≠keepId ∧ !validId root ids e then (-ePerm, ids)
  else if s≠keepId ∧ !validId root ids s then (-ePerm, ids)
  else (0, ⟨replaceId r ids.real,replaceId e ids.effective,replaceId s ids.saved⟩)

/-- Common body of `sys_setreuid` and `sys_setregid`; the saved id follows the new
effective one. -/
def setReId (root : Bool) (ids : Ids) (r e : IdT) : Int × Ids :=
  if r≠keepId ∧ !validId root ids r then (-ePerm, ids)
  else if e≠keepId ∧ !validId root ids e then (-ePerm, ids)
  else
    let real := replaceId r ids.real
    let effective := replaceId e ids.effective
    (0, ⟨real,effective,if r≠keepId ∨ effective≠real then effective else ids.saved⟩)

def Credentials.withUids (p : Credentials) (r : Int × Ids) : Int × Credentials :=
  (r.1, { p with uids := r.2 })

def Credentials.withGids (p : Credentials) (r : Int × Ids) : Int × Credentials :=
  (r.1, { p with gids := r.2 })

def sysSetuid (p : Credentials) (newUid : IdT) : Int × Credentials :=
  p.withUids (setId p.isRoot p.uids newUid)

def sysSetgid (p : Credentials) (newGid : IdT) : Int × Credentials :=
  p.withGids (setId p.isRoot p.gids newGid)

def sysSetresuid (p : Credentials) (ruid euid suid : IdT) : Int × Credentials :=
  p.withUids (setResId p.isRoot p.uids ruid euid suid)

def sysSetreuid (p : Credentials) (ruid euid : IdT) : Int × Credentials :=
  p.withUids (setReId p.isRoot p.uids ruid euid)

def sysSetresgid (p : Credentials) (rgid egid sgid : IdT) : Int × Credentials :=
  p.withGids (setResId p.isRoot p.gids rgid egid sgid)

def sysSetregid (p : Credentials) (rgid egid : IdT) : Int × Credentials :=
  p.withGids (setReId p.isRoot p.gids rgid egid)

inductive CredCall where
  | setuid (newUid : IdT)
  | setgid (newGid : IdT)
  | setresuid (ruid euid suid : IdT)
  | setreuid (ruid euid : IdT)
  | setresgid (rgid egid sgid : IdT)
  | setregid (rgid egid : IdT)
  deriving DecidableEq, Repr

def CredCall.exec (p : Credentials) : CredCall → Int × Credentials
  | .setuid u => sysSetuid p u
  | .setgid g => sysSetgid p g
  | .setresuid r e s => sysSetresuid p r e s
  | .setreuid r e => sysSetreuid p r e
  | .setresgid r e s => sysSetresgid p r e s
  | .setregid r e => sysSetregid p r e

def runCredCalls (p : Credentials) (calls : List CredCall) : Credentials :=
  calls.foldl (fun q c => (c.exec q).2) p

variable (p : Credentials)

private theorem validId_false (id : IdT) : validId false ids id=true ↔ id∈ids.toFinset := by
  simp [validId,Ids.mem_toFinset,or_assoc]

private theorem replaceId_mem (hold : old∈ids.toFinset)
    (hn : ¬(new≠keepId ∧ (!validId false ids new)=true)) :
    replaceId new old∈ids.toFinset := by
  unfold replaceId
  by_cases hk : new=keepId
  · simpa [hk] using hold
  · have hv : validId false ids new=true := by simpa [hk] using hn
    simpa [hk] using (validId_false ids new).mp hv

private theorem Ids.toFinset_subset {old new : Ids} (hr : new.real∈old.toFinset)
    (he : new.effective∈old.toFinset) (hs : new.saved∈old.toFinset) :
    new.toFinset ⊆ old.toFinset := by
  intro x hx
  rcases (Ids.mem_toFinset new).mp hx with rfl | rfl | rfl
  · exact hr
  · exact he
  · exact hs

private theorem Ids.real_mem : ids.real∈ids.toFinset := by
  simp [Ids.mem_toFinset]

private theorem Ids.effective_mem : ids.effective∈ids.toFinset := by
  simp [Ids.mem_toFinset]

private theorem Ids.saved_mem : ids.saved∈ids.toFinset := by
  simp [Ids.mem_toFinset]

private theorem setResId_subset : (setResId false ids r e s).2.toFinset ⊆ ids.toFinset := by
  unfold setResId
  split_ifs with hr he hs
  · exact Finset.Subset.refl _
  · exact Finset.Subset.refl _
  · exact Finset.Subset.refl _
  · exact Ids.toFinset_subset (replaceId_mem ids ids.real_mem hr)
      (replaceId_mem ids ids.effective_mem he) (replaceId_mem ids ids.saved_mem hs)

private theorem setReId_subset : (setReId false ids r e).2.toFinset ⊆ ids.toFinset := by
  unfold setReId
  split_ifs with hr he
  · exact Finset.Subset.refl _
  · exact Finset.Subset.refl _
  have hef := replaceId_mem ids ids.effective_mem he
  apply Ids.toFinset_subset (replaceId_mem ids ids.real_mem hr) hef
  dsimp only
  split_ifs
  · exact hef
  · exact ids.saved_mem

/-- `setId` does what a comparison with both the real and the saved id would do. -/
def SetIdCompares (ids : Ids) (new : IdT) : Prop := new∈ids.toFinset ∨ ids.saved=0

instance (ids : Ids) (new : IdT) : Decidable (SetIdCompares ids new) :=
  inferInstanceAs (Decidable (_ ∨ _))

private theorem setId_subset (h : SetIdCompares ids new) :
    (setId false ids new).2.toFinset ⊆ ids.toFinset := by
  unfold setId
  rw [if_neg Bool.false_ne_true]
  split_ifs with hn
  · apply Ids.toFinset_subset
    · exact ids.real_mem
    · rcases hn with heq | hs
      · exact heq ▸ ids.real_mem
      · exact h.resolve_right hs
    · exact ids.saved_mem
  · exact Finset.Subset.refl _

def CredCall.Compares (p : Credentials) : CredCall → Prop
  | .setuid u => SetIdCompares p.uids u
  | .setgid g => SetIdCompares p.gids g
  | _ => True

instance (p : Credentials) : (c : CredCall) → Decidable (c.Compares p)
  | .setuid u => inferInstanceAs (Decidable (SetIdCompares p.uids u))
  | .setgid g => inferInstanceAs (Decidable (SetIdCompares p.gids g))
  | .setresuid _ _ _ | .setreuid _ _ | .setresgid _ _ _ | .setregid _ _ => .isTrue trivial

def CallsCompare (p : Credentials) : List CredCall → Prop
  | [] => True
  | c::cs => c.Compares p ∧ CallsCompare (c.exec p).2 cs

instance CallsCompare.decidable (p : Credentials) :
    (cs : List CredCall) → Decidable (CallsCompare p cs)
  | [] => .isTrue trivial
  | c::cs =>
    have := CallsCompare.decidable (c.exec p).2 cs
    inferInstanceAs (Decidable (c.Compares p ∧ CallsCompare (c.exec p).2 cs))

def BecomesRoot (p : Credentials) (calls : List CredCall) : Prop :=
  ∃ before, before <+: calls ∧ (runCredCalls p before).uids.effective=userRootUid

def CredCall.onGroups : CredCall → Bool
  | .setgid _ | .setresgid _ _ _ | .setregid _ _ => true
  | _ => false

theorem exec_subset (c : CredCall) (hro : p.uids.effective≠userRootUid) (hc : c.Compares p) :
    (c.exec p).2.uids.toFinset ⊆ p.uids.toFinset ∧
      (c.exec p).2.gids.toFinset ⊆ p.gids.toFinset := by
  have hr : p.isRoot=false := by simp [Credentials.isRoot,hro]
  cases c with
  | setuid u =>
    simp only [CredCall.exec,sysSetuid,hr]
    exact ⟨setId_subset p.uids hc,Finset.Subset.refl _⟩
  | setgid g =>
    simp only [CredCall.exec,sysSetgid,hr]
    exact ⟨Finset.Subset.refl _,setId_subset p.gids hc⟩
  | setresuid r e s =>
    simp only [CredCall.exec,sysSetresuid,hr]
    exact ⟨setResId_subset p.uids,Finset.Subset.refl _⟩
  | setreuid r e =>
    simp only [CredCall.exec,sysSetreuid,hr]
    exact ⟨setReId_subset p.uids,Finset.Subset.refl _⟩
  | setresgid r e s =>
    simp only [CredCall.exec,sysSetresgid,hr]
    exact ⟨Finset.Subset.refl _,setResId_subset p.gids⟩
  | setregid r e =>
    simp only [CredCall.exec,sysSetregid,hr]
    exact ⟨Finset.Subset.refl _,setReId_subset p.gids⟩

private theorem exec_onGroups_uids {c : CredCall} (h : c.onGroups=true) :
    (c.exec p).2.uids=p.uids := by
  cases c <;> first | rfl | cases h

private theorem becomesRoot_cons {p : Credentials} (h : BecomesRoot (c.exec p).2 cs) :
    BecomesRoot p (c::cs) := by
  obtain ⟨before,hp,hr⟩ := h
  exact ⟨c::before,cons_prefix_cons.mpr ⟨rfl,hp⟩,hr⟩

private theorem runCredCalls_subset (hc : CallsCompare p cs) :
    BecomesRoot p cs ∨ ((runCredCalls p cs).uids.toFinset ⊆ p.uids.toFinset ∧
      (runCredCalls p cs).gids.toFinset ⊆ p.gids.toFinset) := by
  induction cs generalizing p with
  | nil => exact .inr ⟨Finset.Subset.refl _,Finset.Subset.refl _⟩
  | cons c cs ih =>
    by_cases hr : p.uids.effective=userRootUid
    · exact .inl ⟨[], nil_prefix,hr⟩
    have hs := exec_subset p c hr hc.1
    rcases ih (c.exec p).2 hc.2 with hb | hsub
    · exact .inl (becomesRoot_cons hb)
    · exact .inr ⟨hsub.1.trans hs.1,hsub.2.trans hs.2⟩

private theorem callsCompare_prefix {p : Credentials} (hp : before <+: cs)
    (hc : CallsCompare p cs) : CallsCompare p before := by
  induction before generalizing p cs with
  | nil => trivial
  | cons c before ih =>
    obtain ⟨rest,rfl⟩ := hp
    exact ⟨hc.1,ih (prefix_append before rest) hc.2⟩

private theorem not_becomesRoot (hc : CallsCompare p cs)
    (h : userRootUid∉p.uids.toFinset) : ¬BecomesRoot p cs := by
  induction cs generalizing p with
  | nil =>
    rintro ⟨before,hp,hr⟩
    rw [prefix_nil.mp hp] at hr
    exact h (hr ▸ p.uids.effective_mem)
  | cons c cs ih =>
    have hr : p.uids.effective≠userRootUid := fun he => h (he ▸ p.uids.effective_mem)
    have hs := exec_subset p c hr hc.1
    rintro ⟨before,hp,hen⟩
    cases before with
    | nil => exact hr hen
    | cons d before =>
      obtain ⟨rfl,ht⟩ := cons_prefix_cons.mp hp
      exact ih (d.exec p).2 hc.2 (fun hm => h (hs.1 hm)) ⟨before,ht,hen⟩

private theorem not_becomesRoot_onGroups (hp : p.uids.effective≠userRootUid)
    (hg : ∀ c∈cs, c.onGroups=true) : ¬BecomesRoot p cs := by
  rintro ⟨before,hpr,hr⟩
  have hb : ∀ c∈before, c.onGroups=true := fun c hm => hg c (hpr.subset hm)
  clear hpr hg
  induction before generalizing p with
  | nil => exact hp hr
  | cons c before ih =>
    have hu := exec_onGroups_uids p (hb c mem_cons_self)
    exact ih (c.exec p).2 (hu ▸ hp) hr fun d hd => hb d (mem_cons_of_mem _ hd)

/-- Only a process that holds root's id as its real or saved uid can get its ids out of the set it
started with, and only by becoming root on the way. -/
theorem runCredCalls_closed (p : Credentials) (cs : List CredCall)
    (hp : p.uids.effective ≠ userRootUid) (hc : CallsCompare p cs) :
    ((p.uids.real = userRootUid ∨ p.uids.saved = userRootUid) ∧ BecomesRoot p cs ∨
      ((runCredCalls p cs).uids.toFinset ⊆ p.uids.toFinset ∧
        (runCredCalls p cs).gids.toFinset ⊆ p.gids.toFinset)) ∧
    (userRootUid ∉ p.uids.toFinset → ∀ before, before <+: cs →
      userRootUid ∉ (runCredCalls p before).uids.toFinset) ∧
    ((∀ c ∈ cs, c.onGroups = true) → (runCredCalls p cs).gids.toFinset ⊆ p.gids.toFinset) := by
  refine ⟨?_,?_,?_⟩
  · by_cases hz : userRootUid∈p.uids.toFinset
    · have hrs : p.uids.real=userRootUid ∨ p.uids.saved=userRootUid := by
        rcases (Ids.mem_toFinset _).mp hz with h | h | h
        · exact .inl h.symm
        · exact absurd h.symm hp
        · exact .inr h.symm
      exact (runCredCalls_subset p hc).imp (fun hb => ⟨hrs,hb⟩) id
    · exact .inr ((runCredCalls_subset p hc).resolve_left (not_becomesRoot p hc hz))
  · intro hz before hpr
    have hcb := callsCompare_prefix hpr hc
    have hsub := (runCredCalls_subset p hcb).resolve_left (not_becomesRoot p hcb hz)
    exact fun hm => hz (hsub.1 hm)
  · intro hg
    exact ((runCredCalls_subset p hc).resolve_left (not_becomesRoot_onGroups p hp hg)).2

theorem runCredCalls_closed_dropped : userRootUid ∉ (runCredCalls ⟨⟨1000,1000,1000⟩,⟨100,100,100⟩⟩
      [.setresuid 1000 0 1000, .setuid 1000, .setregid 100 keepId]).uids.toFinset :=
  (runCredCalls_closed ⟨⟨1000,1000,1000⟩,⟨100,100,100⟩⟩
    [.setresuid 1000 0 1000, .setuid 1000, .setregid 100 keepId] (by decide)
    (by decide)).2.1 (by decide) _ prefix_rfl

/-- A process that kept root as its real uid takes it back and then leaves the set. -/
theorem runCredCalls_regains_root :
    let p : Credentials := ⟨⟨0,1000,1000⟩,⟨100,100,100⟩⟩
    let q := runCredCalls p [.setresuid keepId 0 keepId, .setresuid 5 5 5]
    p.uids.effective ≠ userRootUid ∧ q.uids.real ∉ p.uids.toFinset := by
  decide
end RazionOS.Kernel
