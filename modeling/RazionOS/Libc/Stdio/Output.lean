import Mathlib.Data.UInt

/-!
# Output of a `FILE`

Bytes go into `write_buf`, which `fflush` hands to the system at the end of a line and when it is
full. What the system takes of it is not up to the stream.
-/

namespace RazionOS.Libc.Stdio
open List Bool Function

def BUFSIZ : Nat := 8192
def newline : UInt8 := 10

/-- The bytes given to `syscall_write`, and how many it takes at most; `none` for an error. -/
structure Write where
  bytes : List UInt8
  answer : Option Nat
deriving DecidableEq

def Write.taken (w : Write) : List UInt8 := w.bytes.take (w.answer.getD 0)

/-- The output side of a `FILE`, what it has been given and what it has done. -/
structure Output where
  /-- Whether `write_buf` is there. -/
  opened : Bool
  /-- `write_buf` and the memory behind it. -/
  writeBuf : Nat → UInt8
  written : Nat
  wbufsiz : Nat
  error : Bool
  /-- The indices of `write_buf` that have been stored to. -/
  stores : List Nat
  /-- The bytes that have been copied from the callers. -/
  handed : List UInt8
  /-- The calls of `syscall_write`, in order. -/
  writes : List Write

namespace Output

def init (opened : Bool) : Output := ⟨opened,fun _ => 0,0,BUFSIZ,false,[],[],[]⟩
def accepted (s : Output) : List UInt8 := s.writes.flatMap Write.taken
def pending (s : Output) : List UInt8 := (range s.written).map s.writeBuf
end Output

section Code

-- the answer to each call of `syscall_write`
variable (answers : Nat → Option Nat)

/-- Whether the result is `EOF`. -/
def fflush (s : Output) : Bool × Output :=
  if !s.opened then (true, s)
  else if s.written=0 then (false, s)
  else
    let answer := answers s.writes.length
    let s := { s with writes := s.writes++[Write.mk s.pending answer] }
    match answer with
    | none => (true, { s with error := true })
    | some _ => (false, { s with written := 0 })

def store (b : UInt8) (s : Output) : Output :=
  { s with
    writeBuf := update s.writeBuf s.written b
    written := s.written+1
    stores := s.stores++[s.written]
    handed := s.handed++[b] }

/-- A byte and the flush after it; whether this gives `EOF`. -/
def putByte (b : UInt8) (s : Output) : Bool × Output :=
  let s := store b s
  if s.written=s.wbufsiz ∨ b=newline then fflush answers s else (false, s)

def writeLoop : List UInt8 → Nat → Output → Nat × Output
  | [], newBytes, s => (newBytes, s)
  | b::buf, newBytes, s =>
    match putByte answers b s with
    | (true, s) => (newBytes, s)
    | (false, s) => writeLoop buf (newBytes+1) s

def writeBytes (buf : List UInt8) (s : Output) : Nat × Output :=
  if !s.opened then (0, s) else writeLoop answers buf 0 s

def fwriteLoop (ptr : Nat → UInt8) (size : Nat) : Nat → Nat → Nat → Output → Nat × Output
  | 0, i, _, s => (i, s)
  | count+1, i, tracking, s =>
    let (r, s) := writeBytes answers ((range size).map fun k => ptr (tracking+k)) s
    if r < size then (i, s) else fwriteLoop ptr size count (i+1) (tracking+r) s

def fwrite (ptr : Nat → UInt8) (size nmemb : Nat) (s : Output) : Nat × Output :=
  fwriteLoop answers ptr size nmemb 0 0 s

def fputc (c : UInt32) (s : Output) : UInt32 × Output := (c, (writeBytes answers [c.toUInt8] s).2)

def fputs : List UInt8 → Output → Nat × Output
  | [], s => (0, s)
  | b::str, s => fputs str (fputc answers b.toUInt32 s).2
end Code

inductive Call where
  | fwrite (ptr : Nat → UInt8) (size nmemb : Nat)
  | fputc (c : UInt32)
  | fputs (str : List UInt8)
  | fflush

def Call.run (answers : Nat → Option Nat) (s : Output) : Call → Output
  | .fwrite ptr size nmemb => (Stdio.fwrite answers ptr size nmemb s).2
  | .fputc c => (Stdio.fputc answers c s).2
  | .fputs str => (Stdio.fputs answers str s).2
  | .fflush => (Stdio.fflush answers s).2

def Call.bytes : Call → List UInt8
  | .fwrite ptr size nmemb => (range (size*nmemb)).map ptr
  | .fputc c => [c.toUInt8]
  | .fputs str => str
  | .fflush => []

section Runs
theorem fflush_frame :
    (fflush answers s).2.opened=s.opened ∧ (fflush answers s).2.wbufsiz=s.wbufsiz ∧
      (fflush answers s).2.handed=s.handed ∧ (fflush answers s).2.stores=s.stores := by
  simp only [fflush]
  split
  · exact ⟨rfl,rfl,rfl,rfl⟩
  split
  · exact ⟨rfl,rfl,rfl,rfl⟩
  split <;> exact ⟨rfl,rfl,rfl,rfl⟩

theorem putByte_opened (answers : Nat → Option Nat) (b : UInt8) (s : Output) :
    (putByte answers b s).2.opened=s.opened := by
  simp only [putByte]
  split
  · exact fflush_frame.1
  · rfl

variable {Q : Output → Prop} (hput : ∀ b s, s.opened = true → Q s → Q (putByte answers b s).2)

include hput

private theorem writeLoop_keeps (newBytes : Nat) (ho : s.opened=true) (h : Q s) :
    Q (writeLoop answers buf newBytes s).2 := by
  induction buf generalizing newBytes s with
  | nil => exact h
  | cons b buf ih =>
    have hk := hput b s ho h
    have hs := (putByte_opened answers b s).trans ho
    simp only [writeLoop]
    rcases hr : putByte answers b s with ⟨failed,s'⟩
    rw [hr] at hk hs
    cases failed with
    | true => exact hk
    | false => exact ih _ hs hk

theorem writeBytes_keeps (h : Q s) : Q (writeBytes answers buf s).2 := by
  rw [writeBytes]
  cases ho : s.opened with
  | false => exact h
  | true => exact writeLoop_keeps hput 0 ho h

private theorem fwriteLoop_keeps (count i tracking : Nat) (h : Q s) :
    Q (fwriteLoop answers ptr size count i tracking s).2 := by
  induction count generalizing i tracking s with
  | zero => exact h
  | succ count ih =>
    simp only [fwriteLoop]
    split
    · exact writeBytes_keeps hput h
    · exact ih _ _ (writeBytes_keeps hput h)

private theorem fputs_keeps (h : Q s) : Q (fputs answers str s).2 := by
  induction str generalizing s with
  | nil => exact h
  | cons b str ih => exact ih (writeBytes_keeps hput h)

theorem run_keeps (hf : ∀ s, Q s → Q (fflush answers s).2) (call : Call) (h : Q s) :
    Q (call.run answers s) := by
  cases call with
  | fwrite ptr size nmemb => exact fwriteLoop_keeps hput nmemb 0 0 h
  | fputc c => exact writeBytes_keeps hput h
  | fputs str => exact fputs_keeps hput h
  | fflush => exact hf s h
end Runs

/-- The system takes all that it is given, or none of it while there is room left in the buffer. -/
def Write.Harmless (wbufsiz : Nat) (w : Write) : Prop :=
  match w.answer with
  | some n => w.bytes.length≤n
  | none => w.bytes.length<wbufsiz

instance (wbufsiz : Nat) : (w : Write) → Decidable (w.Harmless wbufsiz)
  | ⟨bytes,some n⟩ => inferInstanceAs (Decidable (bytes.length≤n))
  | ⟨bytes,none⟩ => inferInstanceAs (Decidable (bytes.length<wbufsiz))

namespace Output

/-- All bytes have been accepted or are in the buffer, in order, and all stores are inside of it. -/
structure Stored (s : Output) : Prop where
  written : s.written ≤ s.wbufsiz
  stores : ∀ pos∈s.stores, pos < s.wbufsiz
  handed : s.handed=s.accepted++s.pending

structure Sound (s : Output) : Prop extends Stored s where
  room : s.written < s.wbufsiz

def Spoiled (s : Output) : Prop := ∃ w∈s.writes, ¬w.Harmless s.wbufsiz
end Output

section Sound
variable {s : Output}

private theorem length_pending : s.pending.length=s.written := by
  rw [Output.pending,length_map,length_range]

theorem store_stored (b : UInt8) (h : s.Sound) : (store b s).Stored := by
  have hr := h.room
  refine ⟨hr,?_,?_⟩
  · intro pos hpos
    rcases mem_append.mp hpos with hpos | hpos
    · exact h.stores pos hpos
    · rw [mem_singleton.mp hpos]
      exact hr
  · have hp : (store b s).pending=s.pending++[b] := by
      simp only [Output.pending,store,range_succ,map_append,map_singleton,update_self]
      congr 1
      apply map_congr_left
      intro pos hpos
      exact update_of_ne (mem_range.mp hpos).ne _ _
    show s.handed++[b]=s.accepted++(store b s).pending
    rw [hp,h.handed,append_assoc]

theorem fflush_spoiled (h : s.Spoiled) : (fflush answers s).2.Spoiled := by
  obtain ⟨w,hw,hh⟩ := h
  simp only [fflush]
  split
  · exact ⟨w,hw,hh⟩
  split
  · exact ⟨w,hw,hh⟩
  split
  · exact ⟨w,mem_append_left _ hw,hh⟩
  · exact ⟨w,mem_append_left _ hw,hh⟩

theorem fflush_sound (h : s.Stored) (hw : 0 < s.wbufsiz) (ho : s.opened=true) :
    (fflush answers s).2.Spoiled ∨ (fflush answers s).2.Sound := by
  by_cases hz : s.written=0
  · right
    simp only [fflush,ho,Bool.not_true,false_eq_true,if_false,if_pos hz]
    exact { h with room := by omega }
  simp only [fflush,ho,Bool.not_true,false_eq_true,if_false,if_neg hz]
  cases ha : answers s.writes.length with
  | none =>
    by_cases hr : s.written < s.wbufsiz
    · right
      refine ⟨⟨h.written,h.stores,?_⟩,hr⟩
      simp only [Output.accepted,flatMap_append,flatMap_singleton,Write.taken,Option.getD_none,
        take_zero,append_nil]
      exact h.handed
    · left
      refine ⟨_,mem_append_right _ (mem_singleton_self _),?_⟩
      simp only [Write.Harmless,length_pending]
      exact hr
  | some n =>
    by_cases hf : s.written≤n
    · right
      refine ⟨⟨Nat.zero_le _,h.stores,?_⟩,hw⟩
      have ht : s.pending.take n=s.pending := by
        rw [take_of_length_le]
        rw [length_pending]
        exact hf
      simp only [Output.accepted,flatMap_append,flatMap_singleton,Write.taken,Option.getD_some,ht]
      simp only [Output.pending,range_zero,map_nil,append_nil]
      exact h.handed
    · left
      refine ⟨_,mem_append_right _ (mem_singleton_self _),?_⟩
      simp only [Write.Harmless,length_pending]
      exact hf

structure Output.Inv (s : Output) : Prop where
  wbufsiz : s.wbufsiz=BUFSIZ
  sound : s.Spoiled ∨ s.Sound

theorem Output.Inv.positive (h : s.Inv) : 0 < s.wbufsiz := by
  rw [h.wbufsiz]
  decide

private theorem init_inv : (Output.init opened).Inv := by
  refine ⟨rfl,.inr ⟨⟨Nat.zero_le _,?_,rfl⟩,Nat.zero_lt_succ _⟩⟩
  intro pos hpos
  exact absurd hpos not_mem_nil

private theorem fflush_inv (h : s.Inv) : (fflush answers s).2.Inv := by
  refine ⟨fflush_frame.2.1.trans h.wbufsiz,?_⟩
  rcases h.sound with hsp | hs
  · exact .inl (fflush_spoiled hsp)
  cases ho : s.opened with
  | false =>
    right
    simp only [fflush,ho]
    exact hs
  | true => exact fflush_sound hs.toStored h.positive ho

private theorem store_inv (h : s.Inv) (hr : (store b s).written≠(store b s).wbufsiz) :
    (store b s).Inv := by
  refine ⟨h.wbufsiz,?_⟩
  rcases h.sound with hsp | hso
  · exact .inl hsp
  · have hs := store_stored b hso
    exact .inr { hs with room := lt_of_le_of_ne hs.written hr }

private theorem fflush_store_inv (h : s.Inv) (ho : s.opened=true) :
    (fflush answers (store b s)).2.Inv := by
  refine ⟨fflush_frame.2.1.trans h.wbufsiz,?_⟩
  rcases h.sound with hsp | hs
  · exact .inl (fflush_spoiled hsp)
  · exact fflush_sound (store_stored b hs) h.positive ho

private theorem putByte_inv (h : s.Inv) (ho : s.opened=true) : (putByte answers b s).2.Inv := by
  simp only [putByte]
  by_cases hf : (store b s).written=(store b s).wbufsiz ∨ b=newline
  · rw [if_pos hf]
    exact fflush_store_inv h ho
  · rw [if_neg hf]
    exact store_inv h fun hfu => hf (.inl hfu)

private theorem run_inv (call : Call) (h : s.Inv) : (call.run answers s).Inv :=
  run_keeps (fun _ _ ho h => putByte_inv h ho) (fun _ h => fflush_inv h) call h

private theorem runs_inv (calls : List Call) (h : s.Inv) :
    (calls.foldl (Call.run answers) s).Inv := by
  induction calls generalizing s with
  | nil => exact h
  | cons call calls ih => exact ih (run_inv call h)
end Sound

def Output.Failed (s : Output) : Prop := ∃ w∈s.writes, w.answer=none

/-- Of the bytes the first are taken; all of them if there was no error. -/
def Takes (bytes : List UInt8) (s s' : Output) : Prop :=
  ∃ taken, taken <+: bytes ∧ s'.handed=s.handed++taken ∧ (s'.Failed ∨ taken=bytes)

section Taken
variable (answers : Nat → Option Nat)

theorem fflush_failed (h : s.Failed) : (fflush answers s).2.Failed := by
  obtain ⟨w,hw,ha⟩ := h
  simp only [fflush]
  split
  · exact ⟨w,hw,ha⟩
  split
  · exact ⟨w,hw,ha⟩
  split
  · exact ⟨w,mem_append_left _ hw,ha⟩
  · exact ⟨w,mem_append_left _ hw,ha⟩

/-- With a buffer, `EOF` means an error of `syscall_write`. -/
theorem fflush_eof (ho : s.opened=true) (h : (fflush answers s).1=true) :
    (fflush answers s).2.Failed := by
  revert h
  simp only [fflush,ho,Bool.not_true,false_eq_true,if_false]
  split
  · intro h
    exact absurd h Bool.false_ne_true
  cases ha : answers s.writes.length with
  | none =>
    intro _
    exact ⟨_,mem_append_right _ (mem_singleton_self _),rfl⟩
  | some n =>
    intro h
    exact absurd h Bool.false_ne_true

theorem putByte_handed (b : UInt8) : (putByte answers b s).2.handed=s.handed++[b] := by
  simp only [putByte]
  split
  · exact fflush_frame.2.2.1
  · rfl

private theorem putByte_failed (h : s.Failed) : (putByte answers b s).2.Failed := by
  simp only [putByte]
  split
  · exact fflush_failed answers h
  · exact h

private theorem putByte_eof (ho : s.opened=true) (h : (putByte answers b s).1=true) :
    (putByte answers b s).2.Failed := by
  revert h
  simp only [putByte]
  split
  · exact fflush_eof answers ho
  · intro h
    exact absurd h Bool.false_ne_true

private theorem Takes.refl : Takes [] s s := ⟨[], nil_prefix,(append_nil _).symm,.inr rfl⟩

theorem Takes.trans (hf : s1.handed=s.handed++bytes) (h : Takes more s1 s2) :
    Takes (bytes++more) s s2 := by
  obtain ⟨taken,hp,hh,ha⟩ := h
  refine ⟨bytes++taken,(prefix_append_right_inj bytes).mpr hp,?_,?_⟩
  · rw [hh,hf,append_assoc]
  · exact ha.imp_right fun h => by rw [h]

private theorem Takes.stop (h : Takes bytes s s') (hf : s'.Failed) : Takes (bytes++more) s s' := by
  obtain ⟨taken,hp,hh,-⟩ := h
  exact ⟨taken,hp.trans (prefix_append bytes more),hh,.inl hf⟩

private theorem Takes.all (h : s'.handed=s.handed++bytes) :
    Takes bytes s s' := ⟨bytes,prefix_rfl,h,.inr rfl⟩

private theorem writeLoop_takes (buf : List UInt8) (newBytes : Nat) (ho : s.opened=true) :
    let r := writeLoop answers buf newBytes s
    (r.1=newBytes+buf.length ∧ r.2.handed=s.handed++buf) ∨
      (r.1<newBytes+buf.length ∧ r.2.Failed ∧ Takes buf s r.2) := by
  induction buf generalizing newBytes s with
  | nil => exact .inl ⟨rfl,(append_nil _).symm⟩
  | cons b buf ih =>
    have hh := putByte_handed answers (s := s) b
    have hs := (putByte_opened answers b s).trans ho
    have he := putByte_eof answers (b := b) ho
    simp only [writeLoop,length_cons]
    rcases hre : putByte answers b s with ⟨failed,s'⟩
    rw [hre] at hh hs he
    cases failed with
    | true =>
      right
      refine ⟨by dsimp only; omega,he rfl,[b],?_,hh,.inl (he rfl)⟩
      exact ⟨buf,rfl⟩
    | false =>
      have hr := ih (newBytes+1) hs
      dsimp only at hr ⊢
      rcases hr with ⟨hc,ha⟩ | ⟨hc,hf,ht⟩
      · left
        refine ⟨by omega,?_⟩
        rw [ha,hh,append_assoc,singleton_append]
      · right
        exact ⟨by omega,hf,ht.trans hh⟩

private theorem writeBytes_takes (buf : List UInt8) (ho : s.opened=true) :
    let r := writeBytes answers buf s
    (r.1=buf.length ∧ r.2.handed=s.handed++buf) ∨
      (r.1<buf.length ∧ r.2.Failed ∧ Takes buf s r.2) := by
  have h := writeLoop_takes answers buf 0 ho
  simp only [writeBytes,ho]
  rwa [Nat.zero_add] at h

theorem writeBytes_opened (buf : List UInt8) (ho : s.opened=true) :
    (writeBytes answers buf s).2.opened=true :=
  writeBytes_keeps
    (fun b s _ h => (putByte_opened answers b s).trans h) ho

/-- A single byte is taken also if its flush fails. -/
theorem writeBytes_one (b : UInt8) (ho : s.opened=true) :
    (writeBytes answers [b] s).2.handed=s.handed++[b] := by
  have hh := putByte_handed answers (s := s) b
  simp only [writeBytes,ho,writeLoop]
  rcases hr : putByte answers b s with ⟨failed,s'⟩
  rw [hr] at hh
  cases failed <;> exact hh

private theorem fputs_takes (ho : s.opened=true) :
    (fputs answers str s).2.handed=s.handed++str := by
  induction str generalizing s with
  | nil => exact (append_nil _).symm
  | cons b str ih =>
    have hon := writeBytes_one answers b ho
    have h := ih (writeBytes_opened answers [b] ho)
    rw [hon,append_assoc] at h
    rw [fputs,fputc,UInt8.toUInt8_toUInt32]
    exact h

private theorem fwriteLoop_takes (ptr : Nat → UInt8) (size count i tracking : Nat)
    (ho : s.opened=true) :
    Takes ((range (size*count)).map fun k => ptr (tracking+k)) s
      (fwriteLoop answers ptr size count i tracking s).2 := by
  induction count generalizing i tracking s with
  | zero => exact Takes.refl
  | succ count ih =>
    have hb : (range (size*(count+1))).map (fun k => ptr (tracking+k)) =
        (range size).map (fun k => ptr (tracking+k)) ++
          (range (size*count)).map fun k => ptr (tracking+size+k) := by
      rw [Nat.mul_succ,Nat.add_comm,range_add]
      simp [Nat.add_assoc]
    have hi := writeBytes_takes answers ((range size).map fun k => ptr (tracking+k)) ho
    have hs := writeBytes_opened answers ((range size).map fun k => ptr (tracking+k)) ho
    simp only [length_map,length_range] at hi
    rw [hb]
    simp only [fwriteLoop]
    rcases hi with ⟨hc,ha⟩ | ⟨hc,hf,ht⟩
    · rw [hc,if_neg (Nat.lt_irrefl size)]
      exact (ih (i+1) _ hs).trans ha
    · rw [if_pos hc]
      exact ht.stop hf

private theorem run_takes (call : Call) (ho : s.opened=true) :
    Takes call.bytes s (call.run answers s) := by
  cases call with
  | fwrite ptr size nmemb =>
    have h := fwriteLoop_takes answers ptr size nmemb 0 0 ho
    simp only [Nat.zero_add] at h
    exact h
  | fputc c => exact Takes.all (writeBytes_one answers _ ho)
  | fputs str => exact Takes.all (fputs_takes answers ho)
  | fflush => exact Takes.all (fflush_frame.2.2.1.trans (append_nil _).symm)

private theorem run_opened (call : Call) (ho : s.opened=true) : (call.run answers s).opened=true :=
  run_keeps (fun b s _ h => (putByte_opened answers b s).trans h)
    (fun _ h => fflush_frame.1.trans h) call ho

private theorem run_failed (call : Call) (h : s.Failed) : (call.run answers s).Failed :=
  run_keeps (fun _ _ _ h => putByte_failed answers h) (fun _ h => fflush_failed answers h) call h

private theorem runs_failed (calls : List Call) (h : s.Failed) :
    (calls.foldl (Call.run answers) s).Failed := by
  induction calls generalizing s with
  | nil => exact h
  | cons call calls ih => exact ih (run_failed answers call h)

private theorem runs_takes (ho : s.opened=true) :
    ∃ parts, List.Forall₂ (fun part call => part <+: Call.bytes call) parts calls ∧
      (calls.foldl (Call.run answers) s).handed=s.handed++parts.flatten ∧
      ((calls.foldl (Call.run answers) s).Failed ∨ parts=calls.map Call.bytes) := by
  induction calls generalizing s with
  | nil => exact ⟨[],.nil,(append_nil _).symm,.inr rfl⟩
  | cons call calls ih =>
    obtain ⟨taken,hpr,hh,ha⟩ := run_takes answers call ho
    obtain ⟨parts,hp,hr,hra⟩ := ih (run_opened answers call ho)
    refine ⟨taken::parts,.cons hpr hp,?_,?_⟩
    · rw [foldl_cons,hr,hh,flatten_cons,append_assoc]
    rcases ha with hf | rfl
    · exact .inl (runs_failed answers calls hf)
    · exact hra.imp_right fun h => by rw [h,map_cons]
end Taken

private theorem writeLoop_full (newBytes : Nat) (ho : s.opened=true)
    (hl : ∀ b∈buf, b≠newline) (hf : s.written+buf.length=s.wbufsiz) :
    (writeLoop (fun _ => none) buf newBytes s).2.written=s.wbufsiz := by
  induction buf generalizing newBytes s with
  | nil => exact hf
  | cons b buf ih =>
    have hb := hl b mem_cons_self
    rw [length_cons] at hf
    simp only [writeLoop,putByte]
    by_cases hla : buf.length=0
    · have he : (store b s).written=(store b s).wbufsiz := by
        show s.written+1=s.wbufsiz
        omega
      have hs : (store b s).written≠0 := Nat.succ_ne_zero _
      have hst : (store b s).opened=true := ho
      simp only [if_pos (Or.inl he),fflush,hst,Bool.not_true,false_eq_true,if_false,if_neg hs]
      exact he
    · have hm : ¬((store b s).written=(store b s).wbufsiz ∨ b=newline) := by
        rintro (h | h)
        · have : s.written+1=s.wbufsiz := h
          omega
        · exact hb h
      rw [if_neg hm]
      refine ih _ ho (fun c hc => hl c (mem_cons_of_mem b hc)) ?_
      show s.written+1+buf.length=s.wbufsiz
      omega

/-- The store of a byte does not look at the end of the buffer. -/
theorem fputc_stores (answers : Nat → Option Nat) (c : UInt32) (ho : s.opened=true) :
    s.written∈(fputc answers c s).2.stores := by
  have hput : s.written∈(putByte answers c.toUInt8 s).2.stores := by
    have hs : s.written∈(store c.toUInt8 s).stores := mem_append_right _ (mem_singleton_self _)
    simp only [putByte]
    split
    · rw [fflush_frame.2.2.2]
      exact hs
    · exact hs
  simp only [fputc,writeBytes,ho,writeLoop]
  rcases hr : putByte answers c.toUInt8 s with ⟨failed,s'⟩
  rw [hr] at hput
  cases failed <;> exact hput

private theorem fwrite_full (hb : b≠newline) (ho : s.opened=true) (he : s.written=0) :
    (fwrite (fun _ => none) (fun _ => b) s.wbufsiz 1 s).2.written=s.wbufsiz ∧
      (fwrite (fun _ => none) (fun _ => b) s.wbufsiz 1 s).2.opened=true := by
  let buf := (range s.wbufsiz).map fun _ => b
  have hf : (fwrite (fun _ => none) (fun _ => b) s.wbufsiz 1 s).2 =
      (writeBytes (fun _ => none) buf s).2 := by
    simp only [fwrite,fwriteLoop]
    split <;> rfl
  rw [hf]
  refine ⟨?_,writeBytes_opened _ buf ho⟩
  simp only [writeBytes,ho]
  apply writeLoop_full 0 ho
  · intro c hc
    obtain ⟨k,-,rfl⟩ := mem_map.mp hc
    exact hb
  · rw [length_map,length_range,he,Nat.zero_add]

private theorem stores_full (hb : b≠newline) (ho : s.opened=true) (he : s.written=0) :
    s.wbufsiz∈([Call.fwrite (fun _ => b) s.wbufsiz 1, .fputc c].foldl (Call.run fun _ => none)
      s).stores := by
  obtain ⟨hw,hs⟩ := fwrite_full hb ho he
  have hmem := fputc_stores (fun _ => none) c hs
  rw [hw] at hmem
  exact hmem

end RazionOS.Libc.Stdio
