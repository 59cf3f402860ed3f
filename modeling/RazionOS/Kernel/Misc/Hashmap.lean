import Mathlib.Data.List.Nodup
import RazionOS.Framework.CString

/-!
# Hash maps

A map is an array of chains of entries. Each operation walks one chain, that of the key's hash.
-/

namespace RazionOS.Kernel.Hashmap
open Framework Function List

structure KeyOps (κ : Type) where
  hash : κ → BitVec 32
  comp : κ → κ → Bool

abbrev StringKey := { s : CString // 0∉s }

/-- A `char` is signed. -/
def hashmapStringHash (key : StringKey) : BitVec 32 :=
  key.1.foldl (fun hash c => c.toBitVec.signExtend 32 + (hash <<< 6)+(hash <<< 16) - hash) 0

/-- Characters are compared as `char`; past its end a string has its terminator. -/
def strcmp : CString → CString → Int
  | [], b =>
    if 0<(b.headD 0).toBitVec.toInt then -1
    else if (b.headD 0).toBitVec.toInt<0 then 1
    else 0
  | l::a, b =>
    if l.toBitVec.toInt<(b.headD 0).toBitVec.toInt then -1
    else if (b.headD 0).toBitVec.toInt<l.toBitVec.toInt then 1
    else if l=0 then 0
    else strcmp a b.tail

def hashmapStringComp (a b : StringKey) : Bool := strcmp a.1 b.1 == 0
def hashmapIntHash (key : BitVec 64) : BitVec 32 := key.setWidth 32
def hashmapIntComp (a b : BitVec 64) : Bool := a == b

inductive KeyKind where
  | string
  | int

abbrev KeyKind.Key : KeyKind → Type
  | string => StringKey
  | int => BitVec 64

def KeyKind.ops : (kind : KeyKind) → KeyOps kind.Key
  | string => ⟨hashmapStringHash,hashmapStringComp⟩
  | int => ⟨hashmapIntHash,hashmapIntComp⟩

inductive Fault where
  | nullPointer
deriving DecidableEq

/-- The entries of a chain are keys and pointers, 0 for `NULL`. -/
abbrev Chain (κ : Type) := List (κ × Nat)

structure Map (κ : Type) where
  size : Nat
  entries : Nat → Chain κ
  size_pos : 0 < size

def hashmapCreate (κ : Type) (size : Nat) (hsize : 0 < size) : Map κ := ⟨size,fun _ => [],hsize⟩

def Map.setChain (map : Map κ) (i : Nat) (chain : Chain κ) : Map κ :=
  { map with entries := update map.entries i chain }

@[simp] theorem Map.setChain_entries (map : Map κ) :
    (map.setChain i chain).entries=update map.entries i chain := rfl

section Operations
variable (ops : KeyOps κ)

def Map.bucket (map : Map κ) (key : κ) : Nat := (ops.hash key).toNat % map.size

@[simp] theorem Map.setChain_bucket (map : Map κ) :
    (map.setChain i chain).bucket ops key=map.bucket ops key := rfl

/-- The walk of `hashmap_set`: the value that was there, and the chain with the new one. -/
def setEntry (key : κ) (value : Nat) : Chain κ → Nat × Chain κ
  | [] => (0, [(key, value)])
  | (k, v)::chain =>
    if ops.comp k key then (v, (k, value)::chain)
    else
      let (out, chain) := setEntry key value chain
      (out, (k, v)::chain)

def hashmapSet (key : κ) (value : Nat) (map : Map κ) : Nat × Map κ :=
  let hash := map.bucket ops key
  let (out, chain) := setEntry ops key value (map.entries hash)
  (out, map.setChain hash chain)

def getEntry (key : κ) : Chain κ → Nat
  | [] => 0
  | (k, v)::chain => if ops.comp k key then v else getEntry key chain

def hashmapGet (key : κ) (map : Map κ) : Nat := getEntry ops key (map.entries (map.bucket ops key))

def hasEntry (key : κ) : Chain κ → Bool
  | [] => false
  | (k, _)::chain => if ops.comp k key then true else hasEntry key chain

def hashmapHas (key : κ) (map : Map κ) : Nat :=
  (hasEntry ops key (map.entries (map.bucket ops key))).toNat

/-- The rest of `hashmap_remove`, which looks at an entry before it asks whether there is one. -/
def removeLoop (key : κ) : Chain κ → Except Fault (Nat × Chain κ)
  | [] => .error .nullPointer
  | (k, v)::chain =>
    if ops.comp k key then .ok (v, chain)
    else if chain=[] then .ok (0, [(k, v)])
    else do
      let (out, chain) ← removeLoop key chain
      return (out, (k, v)::chain)

def hashmapRemove (key : κ) (map : Map κ) : Except Fault (Nat × Map κ) :=
  let hash := map.bucket ops key
  match map.entries hash with
  | [] => .ok (0, map)
  | (k, v)::chain =>
    if ops.comp k key then .ok (v, map.setChain hash chain)
    else do
      let (out, chain) ← removeLoop ops key chain
      return (out, map.setChain hash ((k, v)::chain))
end Operations

def hashmapKeys (map : Map κ) : List κ :=
  (range map.size).flatMap fun i => (map.entries i).map Prod.fst

def hashmapValues (map : Map κ) : List Nat :=
  (range map.size).flatMap fun i => (map.entries i).map Prod.snd

inductive Call (κ : Type) where
  | set (key : κ) (value : Nat)
  | get (key : κ)
  | has (key : κ)
  | remove (key : κ)

def step (ops : KeyOps κ) (call : Call κ) (map : Map κ) : Except Fault (Nat × Map κ) :=
  match call with
  | .set key value => .ok (hashmapSet ops key value map)
  | .get key => .ok (hashmapGet ops key map, map)
  | .has key => .ok (hashmapHas ops key map, map)
  | .remove key => hashmapRemove ops key map

/-- The same calls on a partial map. -/
def specStep [DecidableEq κ] (call : Call κ) (m : κ → Option Nat) : Nat × (κ → Option Nat) :=
  match call with
  | .set key value => ((m key).getD 0, update m key (some value))
  | .get key => ((m key).getD 0, m)
  | .has key => ((m key).isSome.toNat, m)
  | .remove key => ((m key).getD 0, update m key none)

private theorem toInt_inj {a b : UInt8} (h : ¬ a.toBitVec.toInt<b.toBitVec.toInt)
    (h' : ¬ b.toBitVec.toInt<a.toBitVec.toInt) : a=b := by
  have heq : a.toBitVec.toInt=b.toBitVec.toInt := by omega
  exact UInt8.toBitVec_inj.1 (BitVec.eq_of_toInt_eq heq)

private theorem strcmp_eq_zero_iff {a b : CString} (ha : 0∉a) (hb : 0∉b) : strcmp a b=0 ↔ a=b := by
  induction a generalizing b with
  | nil =>
    cases b with
    | nil => decide
    | cons r b =>
      have hr : (0 : UInt8)≠r := fun h => hb (h ▸ mem_cons_self)
      have hc : strcmp [] (r::b) =
          if 0 < r.toBitVec.toInt then -1 else if r.toBitVec.toInt<0 then 1 else 0 := rfl
      rw [hc]
      by_cases hlt : 0 < r.toBitVec.toInt
      · rw [if_pos hlt]
        exact iff_of_false (by decide) nofun
      by_cases hgt : r.toBitVec.toInt<0
      · rw [if_neg hlt,if_pos hgt]
        exact iff_of_false (by decide) nofun
      have hz : (0 : UInt8).toBitVec.toInt=0 := by decide
      rw [← hz] at hlt
      exact absurd (toInt_inj hlt hgt) hr
  | cons l a ih =>
    have hl : l≠0 := fun h => ha (h ▸ mem_cons_self)
    have ha' : 0∉a := fun h => ha (mem_cons_of_mem l h)
    simp only [strcmp]
    by_cases hlt : l.toBitVec.toInt<(b.headD 0).toBitVec.toInt
    · rw [if_pos hlt]
      refine iff_of_false (by decide) ?_
      rintro rfl
      simp at hlt
    by_cases hgt : (b.headD 0).toBitVec.toInt<l.toBitVec.toInt
    · rw [if_neg hlt,if_pos hgt]
      refine iff_of_false (by decide) ?_
      rintro rfl
      simp at hgt
    rw [if_neg hlt,if_neg hgt,if_neg hl]
    have hh := toInt_inj hlt hgt
    cases b with
    | nil => exact absurd hh hl
    | cons r b =>
      have hb' : 0∉b := fun h => hb (mem_cons_of_mem r h)
      have hlr : l=r := hh
      rw [tail_cons,ih ha' hb',hlr,cons_inj_right]

theorem comp_iff (kind : KeyKind) (a b : kind.Key) : kind.ops.comp a b=true ↔ a=b := by
  cases kind with
  | string =>
    have hs := strcmp_eq_zero_iff a.2 b.2
    simp only [KeyKind.ops,hashmapStringComp,beq_iff_eq,hs]
    exact Subtype.ext_iff.symm
  | int => simp [KeyKind.ops,hashmapIntComp]

section Chains
variable [DecidableEq κ] {ops : KeyOps κ} (hcomp : ∀ a b, ops.comp a b = true ↔ a = b)
  {chain chain' : Chain κ}

def find (key : κ) : Chain κ → Option Nat
  | [] => none
  | (k, v)::chain => if k=key then some v else find key chain

private theorem find_eq_none_iff : find key chain=none ↔ key∉chain.map Prod.fst := by
  induction chain with
  | nil => simp [find]
  | cons e chain ih =>
    obtain ⟨k,v⟩ := e
    by_cases hk : k=key
    · simp [find,hk]
    · have hk' : key≠k := fun h => hk h.symm
      simp [find,hk,hk',ih]

private theorem find_of_mem (hnd : (chain.map Prod.fst).Nodup) (hmem : (key, value)∈chain) :
    find key chain=some value := by
  induction chain with
  | nil => cases hmem
  | cons e chain ih =>
    obtain ⟨k,v⟩ := e
    obtain ⟨hk,hnd⟩ := nodup_cons.1 hnd
    rcases mem_cons.1 hmem with heq | hmem
    · cases heq
      simp [find]
    have hne : k≠key := by
      rintro rfl
      exact hk (mem_map.2 ⟨_,hmem,rfl⟩)
    simp [find,hne,ih hnd hmem]

theorem filter_of_not_mem (h : key∉chain.map Prod.fst) : chain.filter (fun e => e.1≠key)=chain := by
  apply filter_eq_self.2
  intro e he
  have hek : e.1≠key := fun heq => h (mem_map.2 ⟨e,he,heq⟩)
  simpa using hek

private theorem find_filter :
    find key' (chain.filter fun e => e.1≠key)=if key' = key then none else find key' chain := by
  induction chain with
  | nil => simp [find]
  | cons e chain ih =>
    obtain ⟨k,v⟩ := e
    by_cases hk : k=key
    · rw [filter_cons_of_neg (by simpa using hk),ih,find]
      by_cases hke : key' = key
      · rw [if_pos hke,if_pos hke]
      · rw [if_neg hke,if_neg hke,if_neg (fun h => hke (h.symm.trans hk))]
    · rw [filter_cons_of_pos (by simpa using hk),find,find,ih]
      by_cases hke : key' = key
      · rw [if_pos hke,if_pos hke,if_neg (fun h => hk (h.trans hke))]
      · rw [if_neg hke,if_neg hke]

theorem scan_eq (scan : Chain κ → β) (out : Option Nat → β) (hn : scan []=out none)
    (hc : ∀ k v chain, scan ((k, v)::chain)=if k=key then out (some v) else scan chain) :
    scan chain=out (find key chain) := by
  induction chain with
  | nil => exact hn
  | cons e chain ih => rw [hc,find,ih,← apply_ite]

include hcomp

private theorem getEntry_eq : getEntry ops key chain=(find key chain).getD 0 :=
  scan_eq _ (·.getD 0) rfl fun _ _ _ => by simp [getEntry,hcomp]

private theorem hasEntry_eq : hasEntry ops key chain=(find key chain).isSome :=
  scan_eq _ (·.isSome) rfl fun _ _ _ => by simp [hasEntry,hcomp]

private theorem setEntry_out : (setEntry ops key value chain).1=(find key chain).getD 0 :=
  scan_eq (fun chain => (setEntry ops key value chain).1) (·.getD 0) rfl fun _ _ _ => by
    simp [setEntry,hcomp,apply_ite Prod.fst]

private theorem setEntry_find : find key' (setEntry ops key value chain).2 =
      if key' = key then some value else find key' chain := by
  induction chain with
  | nil => simp [setEntry,find,eq_comm]
  | cons e chain ih =>
    obtain ⟨k,v⟩ := e
    simp only [setEntry,hcomp]
    by_cases hk : k=key
    · rw [if_pos hk,find,find]
      by_cases hke : key' = key
      · rw [if_pos hke,if_pos (hk.trans hke.symm)]
      · rw [if_neg hke,if_neg (fun h => hke (h.symm.trans hk)),
          if_neg (fun h => hke (h.symm.trans hk))]
    · rw [if_neg hk,find,find,ih]
      by_cases hke : key' = key
      · rw [if_pos hke,if_pos hke,if_neg (fun h => hk (h.trans hke))]
      · rw [if_neg hke,if_neg hke]

private theorem setEntry_keys : (setEntry ops key value chain).2.map Prod.fst =
    if key∈chain.map Prod.fst then chain.map Prod.fst else chain.map Prod.fst++[key] := by
  induction chain with
  | nil => rfl
  | cons e chain ih =>
    obtain ⟨k,v⟩ := e
    simp only [setEntry,hcomp]
    by_cases hk : k=key
    · simp [hk]
    have hk' : key≠k := fun h => hk h.symm
    rw [if_neg hk,map_cons,ih,map_cons]
    by_cases hmem : key∈chain.map Prod.fst
    · rw [if_pos hmem,if_pos (mem_cons_of_mem _ hmem)]
    · rw [if_neg hmem,if_neg (not_mem_cons_of_ne_of_not_mem hk' hmem),cons_append]

private theorem removeLoop_eq (hnd : (chain.map Prod.fst).Nodup) (hne : chain≠[]) :
    removeLoop ops key chain = .ok ((find key chain).getD 0, chain.filter fun e => e.1≠key) := by
  induction chain with
  | nil => exact absurd rfl hne
  | cons e chain ih =>
    obtain ⟨k,v⟩ := e
    obtain ⟨hkm,hnd⟩ := nodup_cons.1 hnd
    simp only [removeLoop,find,hcomp]
    by_cases hk : k=key
    · rw [if_pos hk,if_pos hk,filter_cons_of_neg (by simpa using hk),filter_of_not_mem (hk ▸ hkm),
        Option.getD_some]
    rw [if_neg hk,if_neg hk,filter_cons_of_pos (by simpa using hk)]
    by_cases hc : chain=[]
    · rw [hc]
      rfl
    · rw [if_neg hc,ih hnd hc]
      rfl
end Chains

section Refinement
variable [DecidableEq κ] {ops : KeyOps κ} {map map' : Map κ}

abbrev Map.chain (ops : KeyOps κ) (map : Map κ) (key : κ) : Chain κ :=
  map.entries (map.bucket ops key)

structure Refines (ops : KeyOps κ) (map : Map κ) (m : κ → Option Nat) : Prop where
  nodup : ∀ i, ((map.entries i).map Prod.fst).Nodup
  placed : ∀ i, ∀ key∈(map.entries i).map Prod.fst, map.bucket ops key=i
  find_eq : ∀ key, find key (map.chain ops key)=m key

theorem refines_hashmapCreate (hs : 0 < size) :
    Refines ops (hashmapCreate κ size hs) fun _ => none where
  nodup _ := nodup_nil
  placed _ _ hmem := by cases hmem
  find_eq _ := rfl

theorem Refines.setChain (h : Refines ops map m) (key : κ) (hnd : (chain.map Prod.fst).Nodup)
    (hke : ∀ k∈chain.map Prod.fst, k=key ∨ k∈(map.chain ops key).map Prod.fst)
    (hf : ∀ k, find k chain=if k=key then new else find k (map.chain ops key)) :
    Refines ops (map.setChain (map.bucket ops key) chain) (update m key new) where
  nodup i := by
    by_cases hi : i=map.bucket ops key
    · subst hi
      simpa using hnd
    · simpa [hi] using h.nodup i
  placed i k hk := by
    by_cases hi : i=map.bucket ops key
    · subst hi
      simp only [Map.setChain_entries,update_self] at hk
      rcases hke k hk with rfl | hmem
      · rfl
      · exact h.placed _ k hmem
    · simp only [Map.setChain_entries,update_of_ne hi] at hk
      exact h.placed i k hk
  find_eq k := by
    rw [Map.chain,Map.setChain_bucket,Map.setChain_entries]
    by_cases hk : map.bucket ops k=map.bucket ops key
    · rw [hk,update_self,hf]
      by_cases hkey : k=key
      · rw [if_pos hkey,hkey,update_self]
      · rw [if_neg hkey,update_of_ne hkey,← h.find_eq,Map.chain,Map.chain,hk]
    · have hkey : k≠key := fun heq => hk (heq ▸ rfl)
      rw [update_of_ne hk,update_of_ne hkey,← h.find_eq]

variable (hcomp : ∀ a b, ops.comp a b = true ↔ a = b)

include hcomp

section
variable (h : Refines ops map m) (key : κ)
include h key

theorem hashmapSet_refines (value : Nat) : (hashmapSet ops key value map).1=(m key).getD 0 ∧
      Refines ops (hashmapSet ops key value map).2 (update m key (some value)) := by
  constructor
  · rw [← h.find_eq]
    exact setEntry_out hcomp
  apply h.setChain key
  · rw [setEntry_keys hcomp]
    by_cases hmem : key∈(map.chain ops key).map Prod.fst
    · rw [if_pos hmem]
      exact h.nodup _
    · rw [if_neg hmem,nodup_append_comm]
      exact nodup_cons.2 ⟨hmem,h.nodup _⟩
  · intro k hk
    rw [setEntry_keys hcomp] at hk
    by_cases hmem : key∈(map.chain ops key).map Prod.fst
    · rw [if_pos hmem] at hk
      exact .inr hk
    · rw [if_neg hmem,mem_append,mem_singleton] at hk
      exact hk.symm
  · exact fun k => setEntry_find hcomp

theorem hashmapGet_refines : hashmapGet ops key map=(m key).getD 0 := by
  rw [← h.find_eq]
  exact getEntry_eq hcomp

theorem hashmapHas_refines : hashmapHas ops key map=(m key).isSome.toNat := by
  rw [← h.find_eq,hashmapHas,hasEntry_eq hcomp]

theorem hashmapRemove_eq (hp : hashmapHas ops key map=1 ∨ (map.chain ops key).length≠1) :
    ∃ map', hashmapRemove ops key map = .ok ((m key).getD 0, map') ∧
      Refines ops map' (update m key none) := by
  have hf : Refines ops (map.setChain (map.bucket ops key)
      ((map.chain ops key).filter fun e => e.1≠key)) (update m key none) := by
    apply h.setChain key
    · exact (h.nodup _).sublist (filter_sublist.map _)
    · exact fun k hk => .inr ((filter_sublist.map _).subset hk)
    · exact fun k => find_filter
  refine ⟨_,?_,hf⟩
  rw [hashmapHas_refines hcomp h] at hp
  have hnd := h.nodup (map.bucket ops key)
  rw [← h.find_eq] at hp ⊢
  rw [hashmapRemove]
  rw [Map.chain] at hp ⊢
  cases hc : map.entries (map.bucket ops key) with
  | nil =>
    have hs : map.setChain (map.bucket ops key) []=map := by
      rw [Map.setChain,← hc,update_eq_self]
    simp [find,hs]
  | cons e chain =>
    rw [hc] at hp hnd
    obtain ⟨k,v⟩ := e
    simp only [find,hcomp] at ⊢
    by_cases hk : k=key
    · rw [if_pos hk,if_pos hk,filter_cons_of_neg (by simpa using hk),
        filter_of_not_mem (hk ▸ (nodup_cons.1 hnd).1),Option.getD_some]
    have hne : chain≠[] := by
      rintro rfl
      simp [hk,find] at hp
    rw [if_neg hk,if_neg hk,filter_cons_of_pos (by simpa using hk),
      removeLoop_eq hcomp (nodup_cons.1 hnd).2 hne]
    rfl

/-- The entry after the only one is `NULL`. -/
theorem hashmapRemove_fault (ha : hashmapHas ops key map≠1)
    (ho : (map.chain ops key).length=1) : hashmapRemove ops key map = .error .nullPointer := by
  rw [hashmapHas_refines hcomp h,← h.find_eq] at ha
  rw [hashmapRemove]
  obtain ⟨⟨k,v⟩,hc⟩ := length_eq_one_iff.1 ho
  simp only [hc,find,hcomp] at ha ⊢
  by_cases hk : k=key
  · simp [hk] at ha
  · rw [if_neg hk]
    rfl

end

/-- No call removes an absent key from a bucket with exactly one entry. -/
def Plain (ops : KeyOps κ) (call : Call κ) (map : Map κ) : Prop :=
  match call with
  | .remove key => hashmapHas ops key map=1 ∨ (map.chain ops key).length≠1
  | _ => True

theorem step_refines {call : Call κ} (h : Refines ops map m) (hp : Plain ops call map) :
    ∃ map', step ops call map = .ok ((specStep call m).1, map') ∧
      Refines ops map' (specStep call m).2 := by
  cases call with
  | set key value =>
    have hs := hashmapSet_refines hcomp h key value
    exact ⟨_,congrArg Except.ok (Prod.ext hs.1 rfl),hs.2⟩
  | get key => exact ⟨map,congrArg Except.ok (Prod.ext (hashmapGet_refines hcomp h key) rfl),h⟩
  | has key => exact ⟨map,congrArg Except.ok (Prod.ext (hashmapHas_refines hcomp h key) rfl),h⟩
  | remove key => exact hashmapRemove_eq hcomp h key hp

private theorem plain_of_step_ok {call : Call κ} (h : Refines ops map m)
    (hs : step ops call map = .ok (out, map')) : Plain ops call map := by
  cases call with
  | remove key =>
    by_contra hp
    have ha := not_or.1 hp
    have hf := hashmapRemove_fault hcomp h key ha.1 (not_not.1 ha.2)
    exact nomatch hf.symm.trans hs
  | _ => trivial

omit hcomp

theorem mem_hashmapKeys (h : Refines ops map m) (key : κ) :
    key∈hashmapKeys map ↔ (m key).isSome := by
  rw [← h.find_eq,← Option.ne_none_iff_isSome,Ne,find_eq_none_iff,not_not,hashmapKeys, mem_flatMap]
  constructor
  · rintro ⟨i,-,hk⟩
    rw [Map.chain,h.placed i key hk]
    exact hk
  · intro hk
    exact ⟨_,mem_range.2 (Nat.mod_lt _ map.size_pos),hk⟩

theorem nodup_hashmapKeys (h : Refines ops map m) : (hashmapKeys map).Nodup := by
  apply nodup_flatMap.2
  constructor
  · exact fun i _ => h.nodup i
  apply nodup_range.imp
  intro i j hij key hi hj
  exact hij ((h.placed i key hi).symm.trans (h.placed j key hj))

private theorem hashmapValues_eq (h : Refines ops map m) :
    hashmapValues map=(hashmapKeys map).map fun key => (m key).getD 0 := by
  rw [hashmapKeys,map_flatMap]
  apply flatMap_congr
  intro i _
  rw [map_map]
  apply map_congr_left
  rintro ⟨key,value⟩ hmem
  have hk := h.placed i key (mem_map.2 ⟨_,hmem,rfl⟩)
  have hf : find key (map.chain ops key)=some value := by
    rw [Map.chain,hk]
    exact find_of_mem (h.nodup i) hmem
  simp [← h.find_eq,hf]
end Refinement

instance (kind : KeyKind) : DecidableEq kind.Key :=
  match kind with
  | .string => inferInstanceAs (DecidableEq StringKey)
  | .int => inferInstanceAs (DecidableEq (BitVec 64))

inductive Reached (kind : KeyKind) : Map kind.Key → (kind.Key → Option Nat) → Prop
  | create (hsize : 0 < size) :
      Reached kind (hashmapCreate kind.Key size hsize) fun _ => none
  | step {map map' : Map kind.Key} (call : Call kind.Key) :
      Reached kind map m → Plain kind.ops call map → step kind.ops call map = .ok (out, map') →
      Reached kind map' (specStep call m).2

private theorem Reached.refines {map : Map kind.Key} (h : Reached kind map m) :
    Refines kind.ops map m := by
  induction h with
  | create hs => exact refines_hashmapCreate hs
  | step call _ hp hst ih =>
    obtain ⟨map',hok,hr⟩ := step_refines (comp_iff kind) ih hp
    have heq := Except.ok.inj (hok.symm.trans hst)
    rw [← (Prod.mk.inj heq).2]
    exact hr

/-- A call gives what the partial map gives exactly when it is not the removal of an absent key
from a bucket with one entry. -/
theorem hashmap_refines_map {kind : KeyKind} {map : Map kind.Key} {m : kind.Key → Option Nat}
    (h : Reached kind map m) : (∀ call, Plain kind.ops call map ↔
      ∃ map', step kind.ops call map = .ok ((specStep call m).1, map')) ∧
    (hashmapKeys map).Nodup ∧ (∀ key, key ∈ hashmapKeys map ↔ (m key).isSome) ∧
    hashmapValues map = (hashmapKeys map).map fun key => (m key).getD 0 := by
  have hr := h.refines
  refine ⟨fun call => ⟨fun hp => ?_,fun hs => ?_⟩,nodup_hashmapKeys hr,
    mem_hashmapKeys hr,hashmapValues_eq hr⟩
  · obtain ⟨map',hok,_⟩ := step_refines (comp_iff kind) hr hp
    exact ⟨map',hok⟩
  · obtain ⟨map',hok⟩ := hs
    exact plain_of_step_ok (comp_iff kind) hr hok

def oneKey : Map KeyKind.int.Key :=
  (hashmapSet KeyKind.int.ops 1#64 10 (hashmapCreate _ 1 (by decide))).2

def twoKeys : Map KeyKind.int.Key := (hashmapSet KeyKind.int.ops 2#64 20 oneKey).2
def oneKeySpec : KeyKind.int.Key → Option Nat := (specStep (.set 1#64 10) fun _ => none).2
def twoKeysSpec : KeyKind.int.Key → Option Nat := (specStep (.set 2#64 20) oneKeySpec).2

private theorem oneKey_reached : Reached .int oneKey oneKeySpec := by
  have hc := @Reached.create .int 1 Nat.one_pos
  have hs : step KeyKind.int.ops (.set 1#64 10) (hashmapCreate _ 1 Nat.one_pos) =
      .ok (0, oneKey) := rfl
  exact hc.step _ trivial hs

private theorem twoKeys_reached : Reached .int twoKeys twoKeysSpec := by
  have hs : step KeyKind.int.ops (.set 2#64 20) oneKey = .ok (0, twoKeys) := rfl
  exact oneKey_reached.step _ trivial hs

theorem hashmap_refines_map_twoKeys :
    (∃ map', step KeyKind.int.ops (.remove 2#64) twoKeys = .ok (20, map')) ∧
      (hashmapKeys twoKeys).Nodup ∧ (2#64 ∈ hashmapKeys twoKeys ↔ (twoKeysSpec 2#64).isSome) ∧
      hashmapValues twoKeys = (hashmapKeys twoKeys).map fun key => (twoKeysSpec key).getD 0 := by
  have h := hashmap_refines_map twoKeys_reached
  exact ⟨(h.1 (.remove 2#64)).1 (.inl (by decide)),h.2.1,h.2.2.1 2#64,h.2.2.2⟩

/-- `hashmap_remove(map, 2)` reads the entry at `NULL`, where the partial map gives `NULL`. -/
theorem hashmapRemove_absent_key :
    step KeyKind.int.ops (.remove 2#64) oneKey = .error .nullPointer ∧
      (specStep (.remove 2#64) oneKeySpec).1 = 0 :=
  ⟨rfl,by decide⟩
end RazionOS.Kernel.Hashmap
