import Mathlib.Data.List.Induction

/-!
# The sector cache of ISO 9660

`read_sector` keeps sectors in a hashmap, and a list of their numbers with the least recently used
one first. The hashmap is the map that it refines.
-/

namespace RazionOS.Modules.Iso9660
open Function List

abbrev Bytes := List UInt8

def cacheSize : Nat := 64

/-- What `read_fs` returns for a sector, and the buffer after it. -/
structure DeviceRead where
  result : Int
  buffer : Bytes

structure Cache where
  sectors : UInt32 → Option Bytes
  lru : List UInt32

structure Call where
  sectorId : UInt32
  device : DeviceRead

/-- `read_sector` without a cache: the status and the buffer. -/
def readUncached (device : DeviceRead) : Int × Bytes :=
  if device.result<0 then (device.result, device.buffer)
  else if device.result=0 then (1, device.buffer)
  else (0, device.buffer)

/-- The least recently used sector is dropped if there are more than `CACHE_SIZE`. -/
def makeRoom (c : Cache) : Cache :=
  match c.lru with
  | [] => c
  | l::lru => if c.lru.length > cacheSize then ⟨update c.sectors l none,lru⟩ else c

/-- `none` is `list_delete` of a number that `list_find` has not found. -/
def readSector (c : Cache) (call : Call) : Option ((Int × Bytes) × Cache) :=
  match c.sectors call.sectorId with
  | some buf =>
    if call.sectorId∈c.lru then
      some ((0, buf), { c with lru := c.lru.erase call.sectorId++[call.sectorId] })
    else none
  | none =>
    let c := makeRoom c
    if 0<call.device.result then
      some (readUncached call.device, ⟨update c.sectors call.sectorId (some call.device.buffer),
        c.lru++[call.sectorId]⟩)
    else some (readUncached call.device, c)

def emptyCache : Cache := ⟨fun _ => none,[]⟩

def readSectors (calls : List Call) : Option Cache :=
  calls.foldlM (fun c call => (readSector c call).map (·.2)) emptyCache

section Transparent
variable (contents : UInt32 → Bytes)

/-- The device does not change, and a read that does not fail delivers the whole sector. -/
def Call.Delivers (call : Call) : Prop :=
  0<call.device.result → call.device.buffer=contents call.sectorId

structure Consistent (calls : List Call) (c : Cache) : Prop where
  nodup : c.lru.Nodup
  keys : ∀ sector, (c.sectors sector).isSome ↔ sector∈c.lru
  length_le : c.lru.length≤cacheSize+1
  sectors : ∀ sector buf, c.sectors sector=some buf → buf=contents sector ∧
    ∃ call∈calls, call.sectorId=sector ∧ 0<call.device.result

/-- The cached call returns what the other one does, or delivers a sector that was read before and
that the device does not deliver any more. -/
def Agrees (calls : List Call) (call : Call) (result : Int × Bytes) : Prop :=
  result=readUncached call.device ∨ call.device.result≤0 ∧ result=(0, contents call.sectorId) ∧
      ∃ earlier∈calls, earlier.sectorId=call.sectorId ∧ 0<earlier.device.result

variable {contents} {call : Call}

private theorem readUncached_of_pos (h : 0<call.device.result) (hd : call.Delivers contents) :
    readUncached call.device=(0, contents call.sectorId) := by
  rw [readUncached,if_neg (by omega),if_neg (by omega),hd h]

section
variable (h : Consistent contents calls c)
include h

private theorem Consistent.makeRoom (hn : sector∉c.lru) :
    Consistent contents calls (makeRoom c) ∧ sector∉(makeRoom c).lru ∧
      (makeRoom c).lru.length≤cacheSize := by
  obtain ⟨sectors,_ | ⟨l,lru⟩⟩ := c
  · exact ⟨h,hn,Nat.zero_le _⟩
  have hlen := h.length_le
  have hnd := nodup_cons.1 h.nodup
  simp only [Iso9660.makeRoom]
  split
  · refine ⟨⟨hnd.2,fun s => ?_,Nat.le_of_succ_le hlen,fun s buf hs => ?_⟩,fun hm => ?_,
      Nat.le_of_succ_le_succ hlen⟩
    · have hk := h.keys s
      by_cases hl : s=l
      · simp [hl,hnd.1]
      · simpa [hl] using hk
    · by_cases hl : s=l
      · simp [hl] at hs
      · exact h.sectors s buf ((update_of_ne hl ..).symm.trans hs)
    · exact hn (mem_cons_of_mem l hm)
  · exact ⟨h,hn,Nat.not_lt.1 ‹_›⟩

theorem Consistent.mono : Consistent contents (calls++[call]) c :=
  { h with sectors := fun sector buf hs =>
      (h.sectors sector buf hs).imp_right fun ⟨e,he,hr⟩ => ⟨e,mem_append_left _ he,hr⟩ }

private theorem Consistent.insert (hn : call.sectorId∉c.lru)
    (hlen : c.lru.length≤cacheSize) (hd : call.Delivers contents) (hpos : 0<call.device.result) :
    Consistent contents (calls++[call])
      ⟨update c.sectors call.sectorId (some call.device.buffer),c.lru++[call.sectorId]⟩ where
  nodup := nodup_append.2 ⟨h.nodup,by simp,by grind⟩
  keys sector := by
    by_cases hs : sector=call.sectorId
    · simp [hs]
    · simp [hs,h.keys]
  length_le := by
    rw [length_append]
    exact Nat.succ_le_succ hlen
  sectors sector buf hb := by
    by_cases hs : sector=call.sectorId
    · subst hs
      obtain rfl : call.device.buffer=buf := by simpa using hb
      exact ⟨hd hpos,call,by simp,rfl,hpos⟩
    · exact (h.mono).sectors sector buf ((update_of_ne hs ..).symm.trans hb)

private theorem Consistent.touch (hm : sector∈c.lru) :
    Consistent contents calls { c with lru := c.lru.erase sector++[sector] } := by
  have hp : (c.lru.erase sector++[sector]).Perm c.lru :=
    (perm_append_singleton sector _).trans (perm_cons_erase hm).symm
  exact ⟨hp.nodup_iff.2 h.nodup,fun s => (h.keys s).trans hp.mem_iff.symm,
    hp.length_eq ▸ h.length_le,h.sectors⟩

theorem Consistent.readSector (hd : call.Delivers contents) :
    ∃ result c', readSector c call=some (result, c') ∧ Agrees contents calls call result ∧
      Consistent contents (calls++[call]) c' := by
  rw [Iso9660.readSector]
  cases hs : c.sectors call.sectorId with
  | some buf =>
    have hm : call.sectorId∈c.lru := (h.keys _).1 (by simp [hs])
    obtain ⟨rfl,earlier⟩ := h.sectors _ _ hs
    refine ⟨_,_,if_pos hm,?_,(h.touch hm).mono⟩
    by_cases hr : 0<call.device.result
    · exact .inl (readUncached_of_pos hr hd).symm
    · exact .inr ⟨Int.not_lt.1 hr,rfl,earlier⟩
  | none =>
    have hn : call.sectorId∉c.lru := fun hm => by simpa [hs] using (h.keys _).2 hm
    -- room is made before the device is read, whether or not the read fails
    obtain ⟨h',hn',hlen⟩ := h.makeRoom hn
    by_cases hr : 0<call.device.result
    · exact ⟨_,_,if_pos hr,.inl rfl,h'.insert hn' hlen hd hr⟩
    · exact ⟨_,_,if_neg hr,.inl rfl,h'.mono⟩

end

private theorem readSectors_consistent (hd : ∀ call∈calls, call.Delivers contents) :
    ∃ c, readSectors calls=some c ∧ Consistent contents calls c := by
  induction calls using reverseRecOn with
  | nil => exact ⟨emptyCache,rfl,nodup_nil,by simp [emptyCache],Nat.zero_le _,nofun⟩
  | append_singleton calls call ih =>
    obtain ⟨c,hc,h⟩ := ih fun e he => hd e (mem_append_left _ he)
    obtain ⟨result,c',hr,-,h'⟩ := h.readSector (hd call (by simp))
    refine ⟨c',?_,h'⟩
    rw [readSectors,foldlM_append,← readSectors,hc]
    simp [hr]
end Transparent

/-- After any calls the keys are the entries of the list, and the next call agrees with a call that
has no cache. -/
theorem readSector_transparent (contents : UInt32 → Bytes) (calls : List Call) (call : Call)
    (hd : ∀ e ∈ call :: calls, e.Delivers contents) :
    ∃ c result c', readSectors calls = some c ∧ Consistent contents calls c ∧
      readSector c call = some (result, c') ∧ Agrees contents calls call result := by
  obtain ⟨c,hc,h⟩ := readSectors_consistent fun e he => hd e (mem_cons_of_mem call he)
  obtain ⟨result,c',hr,ha,-⟩ := h.readSector (hd call mem_cons_self)
  exact ⟨c,result,c',hc,h,hr,ha⟩

/-- Sector 7 is read, and delivered again when the device fails. -/
theorem readSector_transparent_failing : ∃ c result c',
    readSectors [⟨7,⟨2048,[1]⟩⟩] = some c ∧ Consistent (fun _ => [1]) [⟨7,⟨2048,[1]⟩⟩] c ∧
      readSector c ⟨7,⟨-5,[]⟩⟩ = some (result, c') ∧
      Agrees (fun _ => [1]) [⟨7,⟨2048,[1]⟩⟩] ⟨7,⟨-5,[]⟩⟩ result :=
  readSector_transparent _ _ _ (by simp [Call.Delivers])
end RazionOS.Modules.Iso9660
