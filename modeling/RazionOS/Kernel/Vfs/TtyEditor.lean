import Mathlib.Algebra.Order.Ring.Int
import Mathlib.Data.List.Forall2
import Mathlib.Data.List.TakeDrop
import RazionOS.Framework.Runs
import RazionOS.Kernel.Vfs.Tty

/-!
# Lines and modes

Without interrupted writes the driver is a line editor, but for the order in which it tests for
signals and maps the input. Runs that change the mode or in which deliveries are cut keep their
bytes under conditions on each step.
-/

namespace RazionOS.Kernel.Vfs.Tty
open Framework List Option

variable {s s1 : Pty}

/-- The line that is edited, whether its next byte is taken literally, and what was delivered. -/
structure Editor where
  line : List UInt8
  literal : Bool
  delivered : List UInt8

namespace Editor
variable (t : Termios) (e : Editor)

def append (c : UInt8) : Editor := { e with line := (e.line++[c]).take canonBufsize }

def deliver (line : List UInt8) : Editor := { e with line := [], delivered := e.delivered++line }

/-- The line without its last word. -/
def eraseWord (line : List UInt8) : List UInt8 :=
  (line.rdropWhile (· == space)).rdropWhile (· != space)

def edit (c : UInt8) : Editor :=
  match t.key c with
  | .lnext => { e with literal := true }
  | .kill => { e with line := [] }
  | .erase => { e with line := e.line.dropLast }
  | .werase => { e with line := eraseWord e.line }
  | .eof => e.deliver e.line
  | .eol => e.deliver (e.line.take (canonBufsize-1)++[c])
  | .text => e.append c

/-- The editor after a typed byte: the mappings come first. -/
def type (c : UInt8) : Editor :=
  if e.literal then { e with literal := false }.append c
  else
    match t.inputMap c with
    | none => e
    | some c => if (t.signalOf c).isSome then { e with line := [] } else e.edit t c

/-- The same in the order of the driver, which tests for signals first and may be in raw mode. -/
def receive (c : UInt8) : Editor :=
  if e.literal then { e with literal := false }.append c
  else
    match t.signalOf c, t.inputMap c with
    | some _, _ => { e with line := [] }
    | none, none => e
    | none, some c => if t.icanon then e.edit t c else { e with delivered := e.delivered++[c] }
end Editor

def Pty.editor (s : Pty) : Editor := ⟨s.pending,s.nextIsVerbatim,s.input⟩

/-- No write is interrupted and the line is within its buffer. -/
structure Calm (t : Termios) (s : Pty) : Prop where
  tios : s.tios=t
  inFaults : s.inFaults=[]
  outFaults : s.outFaults=[]
  bound : s.canonBuflen ≤ canonBufsize

variable {t : Termios}

/-- The computation ends in a calm state, in which the editor is the given one. -/
def Reaches (t : Termios) (e : Editor) (r : Except Pty Pty) : Prop :=
  ∃ s, r = .ok s ∧ Calm t s ∧ s.editor=e

section
variable (h : Edited s line w s1) (hs : Calm t s) (hlen : line.length ≤ canonBufsize)
include h hs hlen

theorem Edited.calm : Calm t s1 ∧ s1.editor=⟨line,s.nextIsVerbatim,s.input⟩ := by
  have hp := h.pending
  obtain ⟨buffer,rfl,-⟩ := h
  exact ⟨⟨hs.1,hs.2,hs.3,hlen⟩,by simp [Pty.editor,hp]⟩

theorem Edited.reaches (hr : r = .ok s1) : Reaches t ⟨line,s.nextIsVerbatim,s.input⟩ r :=
  ⟨s1,hr,h.calm hs hlen⟩

end

theorem Calm.length_pending (hs : Calm t s) : s.pending.length≤canonBufsize := by
  simpa [Pty.pending] using hs.bound

private theorem length_rdropWhile_le (line : List UInt8) :
    (line.rdropWhile p).length≤line.length := (List.rdropWhile_prefix p line).length_le

section
variable (hs : Calm t s)
include hs

private theorem dump_reaches :
    Reaches t (s.editor.deliver s.pending) (.ok (settle (dumpInputBuffer s))) :=
  ⟨_,rfl,by rw [settle_dump hs.inFaults]; exact ⟨hs.1,hs.2,hs.3,Nat.zero_le _⟩,
    by rw [settle_dump hs.inFaults]; rfl⟩

private theorem canonicalInput_reaches : Reaches t (s.editor.edit t c) (canonicalInput c s) := by
  obtain ⟨rfl,hf,hq,hb⟩ := id hs
  have hlen := hs.length_pending
  rw [Editor.edit]
  cases hk : s.tios.key c with
  | lnext =>
    obtain ⟨s1,hs1,h1⟩ := outputProcess_edited (s := { s with nextIsVerbatim := true }) hq
      [caret,backspace]
    exact h1.reaches ⟨rfl,hf,hq,hb⟩ hlen (by simpa [canonicalInput,hk] using hs1)
  | kill =>
    obtain ⟨s1,hs1,h1⟩ := canonicalInput_kill hq hk
    exact h1.reaches hs (Nat.zero_le _) hs1
  | erase =>
    obtain ⟨s1,w,hs1,h1⟩ : ∃ s1 w, ttyEraseOne s.tios.echoe s = .ok s1 ∧
        Edited s s.pending.dropLast w s1 := by
      rcases eq_nil_or_concat' s.pending with hp | ⟨line,x,hp⟩
      · have hlen : s.canonBuflen=0 := by simpa [Pty.pending] using hp
        exact ⟨s,[],by rw [ttyEraseOne,if_pos hlen],by simpa [hp] using Edited.refl s⟩
      · obtain ⟨s1,hs1,h1⟩ := ttyEraseOne_edited hq _ hp
        exact ⟨s1,_,hs1,by simpa [hp] using h1⟩
    obtain ⟨s2,hs2,h2⟩ := h1.output hq _
    refine h2.reaches hs ?_ (by simpa [canonicalInput,hk,hs1] using hs2)
    exact (dropLast_sublist _).length_le.trans hlen
  | werase =>
    obtain ⟨s1,hs1,h1⟩ := eraseWhile_edited hq s.tios.echoe (· == space)
    obtain ⟨s2,hs2,h2⟩ := eraseWhile_edited (h1.outFaults.trans hq) s.tios.echoe (· != space)
    obtain ⟨s3,hs3,h3⟩ := (h1.trans h2).output hq _
    rw [h1.pending] at h3
    refine h3.reaches hs ?_ (by simpa [canonicalInput,hk,hs1,hs2] using hs3)
    exact (length_rdropWhile_le ..).trans ((length_rdropWhile_le ..).trans hlen)
  | eof =>
    by_cases h0 : s.canonBuflen=0
    · refine ⟨{ s with inputEof := true },by simp [canonicalInput,hk,h0],⟨rfl,hf,hq,hb⟩,?_⟩
      simp [Pty.editor,Editor.deliver,Pty.pending,h0]
    · simp only [canonicalInput,hk,if_pos h0]
      exact dump_reaches hs
  | eol =>
    obtain ⟨s1,w,hs1,h1⟩ := canonicalInput_eol hq hb hk
    have hpos : 0<canonBufsize := by decide
    obtain ⟨hc,he⟩ := h1.calm hs (by simp; omega)
    have hd := dump_reaches hc
    rw [he,h1.pending] at hd
    rw [hs1]
    exact hd
  | text =>
    obtain ⟨s1,hs1,h1⟩ := canonicalInput_text hq hb hk
    exact h1.reaches hs (length_take_le ..) hs1

theorem ttyInputProcess_reaches : Reaches t (s.editor.receive t c) (ttyInputProcess c s) := by
  obtain ⟨rfl,hf,hq,hb⟩ := id hs
  have hlen := hs.length_pending
  rw [ttyInputProcess,Editor.receive,show s.editor.literal=s.nextIsVerbatim from rfl]
  by_cases hv : s.nextIsVerbatim
  · rw [if_pos hv,if_pos hv]
    have hput := put_edited (s := { s with nextIsVerbatim := false }) (c := c) hb
    obtain ⟨s1,hs1,h1⟩ := hput.output hq _
    exact h1.reaches ⟨rfl,hf,hq,hb⟩ (length_take_le ..) hs1
  rw [if_neg hv,if_neg hv]
  obtain _ | sig := s.tios.signalOf c
  · obtain _ | c := s.tios.inputMap c
    · exact ⟨s,rfl,hs,rfl⟩
    by_cases hi : s.tios.icanon
    · simp only [if_pos hi]
      exact canonicalInput_reaches hs
    · simp only [if_neg hi]
      obtain ⟨s1,hs1,h1⟩ := outputProcess_edited hq _
      obtain ⟨⟨ht,hf1,hq1,hb1⟩,he⟩ := h1.calm hs hlen
      refine ⟨{ s1 with input := s1.input++[c], inFaults := [] },?_,⟨ht,rfl,hq1,hb1⟩,?_⟩
      · rw [hs1,ok_bind,writeIn,hf1]
        rfl
      simp_all [Pty.editor,Pty.pending]
  · obtain ⟨s1,hs1,h1⟩ := outputProcess_edited hq (echoed s.tios true c)
    obtain ⟨⟨ht,hf1,hq1,-⟩,he⟩ := h1.calm hs hlen
    refine ⟨_,by simp only [hs1]; rfl,?_,?_⟩
    · split <;> exact ⟨ht,hf1,hq1,Nat.zero_le _⟩
    · split <;> simp_all [clearInputBuffer,Pty.editor,Pty.pending]

theorem Calm.type (c : UInt8) : Calm t (s.type c) ∧ (s.type c).editor=s.editor.receive t c := by
  obtain ⟨s1,hs1,h1⟩ := ttyInputProcess_reaches hs
  rw [Pty.type,hs1]
  exact h1

theorem Calm.types (bytes : List UInt8) : Calm t (bytes.foldl Pty.type s) ∧
    (bytes.foldl Pty.type s).editor=bytes.foldl (Editor.receive t) s.editor := by
  induction bytes generalizing s with
  | nil => exact ⟨hs,rfl⟩
  | cons c bytes ih =>
    obtain ⟨h1,he⟩ := hs.type c
    rw [foldl_cons,foldl_cons,← he]
    exact ih h1

private theorem Calm.writes (writes : List (List UInt8)) :
    writes.foldlM (fun s buffer => writePtyMaster buffer s) s =
      .ok (writes.flatten.foldl Pty.type s) := by
  induction writes generalizing s with
  | nil => rfl
  | cons buffer writes ih =>
    have hw : writePtyMaster buffer s = .ok (buffer.foldl Pty.type s) := by
      refine writePtyMaster_eq fun c _ => ?_
      obtain ⟨s1,hs1,-⟩ := ttyInputProcess_reaches hs
      exact ⟨s1,hs1⟩
    rw [foldlM_cons,hw,ok_bind,ih (hs.types buffer).1,flatten_cons,foldl_append]

end

private theorem Calm.new : Calm t { ptyNew buffer with tios := t } := ⟨rfl,rfl,rfl,Nat.zero_le _⟩

private theorem receive_eq_type (hi : t.icanon)
    (h : (t.signalOf c).isSome=((t.inputMap c).bind t.signalOf).isSome) (e : Editor) :
    e.receive t c=e.type t c := by
  rw [Editor.receive,Editor.type]
  cases hm : t.inputMap c <;> cases hs : t.signalOf c <;> simp_all

/-- Canonical mode is the line editor if the mappings change nothing about which of the bytes that
are typed is a signal. -/
theorem canonical_editing (buffer : Nat → UInt8) (hi : t.icanon) (writes : List (List UInt8)) :
    ∃ s, writes.foldlM (fun s buffer => writePtyMaster buffer s)
        { ptyNew buffer with tios := t } = .ok s ∧ s.canonBuflen ≤ canonBufsize ∧
      ((∀ c ∈ writes.flatten, (t.signalOf c).isSome = ((t.inputMap c).bind t.signalOf).isSome) →
        s.input = (writes.flatten.foldl (Editor.type t) ⟨[],false,[]⟩).delivered) := by
  obtain ⟨hc,he⟩ := (Calm.new).types _
  refine ⟨_,(Calm.new).writes writes,hc.bound,fun hs => ?_⟩
  rw [foldl_ext _ _ _ fun e c hmem => receive_eq_type hi (hs c hmem) e] at he
  exact congrArg Editor.delivered he

/-- Canonical mode and nothing else. -/
def canonicalTermios : Termios := { (default : Termios) with icanon := true }

def strippingPty : Pty :=
  let pty := ptyNew fun _ => 0
  { pty with tios := { pty.tios with istrip := true } }

/-- The second letter is erased again. -/
theorem canonical_editing_line :
    ∃ s, [[97,98],[0x7F,10]].foldlM (fun s buffer => writePtyMaster buffer s) strippingPty = .ok s ∧
      s.input = [97,10] := by
  obtain ⟨s,hs,-,hin⟩ := canonical_editing (t := strippingPty.tios) (fun _ => 0) rfl
    [[97,98],[0x7F,10]]
  refine ⟨s,hs,hin ?_⟩
  simp only [flatten_cons,cons_append,nil_append,flatten_nil,append_nil,forall_mem_cons]
  exact ⟨rfl,rfl,rfl,rfl,by simp⟩

theorem stripped_signal_in_line :
    (settle (writePtyMaster [97,0x83,10] strippingPty)).input = [97,3,10] ∧
    ([97,0x83,10].foldl (Editor.type strippingPty.tios) ⟨[],false,[]⟩).delivered = [10] := by
  decide

/-! ### Changes of mode -/

private theorem buflen_eq (s : Pty) : s.canonBuflen=s.editor.line.length := by
  simp [Pty.editor,Pty.pending]

inductive Event where
  | byte (c : UInt8)
  | tcset (discard : Bool) (t : Termios)

def step (s : Pty) : Event → Pty
  | .byte c => s.type c
  | .tcset discard t => tcset discard t s

/-- In raw mode no line is held back, and a byte that is neither a signal nor ignored arrives. -/
def RawLaw (s : Pty) (e : Event) : Prop :=
  ((step s e).tios.icanon=false → (step s e).canonBuflen=0) ∧
  ∀ c c', e = .byte c → s.tios.icanon=false → s.tios.signalOf c=none →
    s.tios.inputMap c=some c' → (step s e).input=s.input++[c']

/-- The byte is typed in raw mode after a `VLNEXT` that was typed in canonical mode. -/
def Quoted (s : Pty) (e : Event) : Prop :=
  s.tios.icanon=false ∧ s.nextIsVerbatim=true ∧ ∃ c, e = .byte c

private theorem Calm.tcset (hs : Calm t s) (discard : Bool) (t' : Termios) :
    Calm t' (tcset discard t' s) := by
  rw [Tty.tcset,settle_dump hs.inFaults]
  split_ifs
  · exact ⟨rfl,hs.2,hs.3,Nat.zero_le _⟩
  · exact ⟨rfl,hs.2,hs.3,Nat.zero_le _⟩
  · exact ⟨rfl,hs.2,hs.3,hs.4⟩

def RawInv (s : Pty) : Prop := Calm s.tios s ∧ (s.tios.icanon=false → s.canonBuflen=0)

private theorem rawLaw_iff (h : RawInv s) : RawLaw s e ↔ ¬Quoted s e := by
  obtain ⟨hs,hr⟩ := h
  cases e with
  | tcset discard t =>
    simp only [RawLaw,Quoted,step,reduceCtorEq,false_implies,implies_true,and_true,exists_false,
      and_false,not_false_eq_true,iff_true]
    rw [tcset,settle_dump hs.inFaults]
    intro ht
    split_ifs with h1 h2
    · rfl
    · rfl
    · exact hr (by simpa [show t.icanon=false from ht] using h2)
  | byte c =>
    obtain ⟨h1,he⟩ := hs.type c
    have hin := congrArg Editor.delivered he
    have hlen := buflen_eq (s.type c)
    rw [he] at hlen
    cases hi : s.tios.icanon with
    | true => simp [RawLaw,Quoted,step,h1.tios,hi]
    | false =>
      have hl : s.pending=[] := by simp [Pty.pending,hr hi]
      cases hv : s.nextIsVerbatim with
      | true =>
        have ho : (s.type c).canonBuflen=1 := by
          rw [hlen]
          simp [Editor.receive,Pty.editor,hv,hl,Editor.append,canonBufsize,ttyBufferSize]
        simp [RawLaw,Quoted,step,h1.tios,hi,hv,ho]
      | false =>
        simp only [Quoted,hv,Bool.false_eq_true,false_and,and_false,not_false_eq_true,iff_true]
        simp only [Editor.receive,Pty.editor,hv,hl,hi] at hlen hin
        refine ⟨fun _ => ?_,?_⟩
        · rw [step,hlen]
          cases s.tios.signalOf c <;> cases s.tios.inputMap c <;> rfl
        · rintro _ c' ⟨⟩ - hs hm
          simpa [step,hs,hm] using hin

theorem raw_mode_iff (buffer : Nat → UInt8) (events : List Event) :
    Along step RawLaw (ptyNew buffer) events ↔
      Along step (fun s e => ¬Quoted s e) (ptyNew buffer) events := by
  have hstep : ∀ s e, RawInv s → RawLaw s e → RawInv (step s e) := by
    rintro s e ⟨hs,-⟩ he
    refine ⟨?_,he.1⟩
    cases e with
    | byte c => exact (hs.type c).1.tios ▸ (hs.type c).1
    | tcset discard t => exact hs.tcset discard t
  exact Along.congr hstep (fun s e hs => rawLaw_iff hs) ⟨⟨rfl,rfl,rfl,Nat.zero_le _⟩,nofun⟩

theorem quoted_byte_held_back :
    let s := [.byte 22,.tcset false default,.byte 97].foldl step (ptyNew fun _ => 0)
    s.tios.icanon = false ∧ s.canonBuflen = 1 ∧ s.input = [] := by
  decide

/-! ### Interrupted deliveries -/

/-- A byte that is neither a signal nor edits the line. -/
def Termios.Plain (t : Termios) (c : UInt8) : Prop :=
  t.signalOf c=none ∧ ∀ c', t.inputMap c=some c' → t.key c' = .text ∨ t.key c' = .eol

/-- What has entered the input and what waits in the buffer. -/
def Pty.flow (s : Pty) : List UInt8 := s.input++s.pending

/-- The byte is added to what has entered or waits, of which nothing is lost or repeated. -/
def Conserved (s : Pty) (c : {c // t.Plain c}) : Prop :=
  (s.type c).flow=s.flow++(t.inputMap c).toList

/-- There is room for the byte, and what a cut delivery of the line leaves in the buffer, its
first bytes, is what was not delivered. -/
def Unbroken (s : Pty) (c : {c // t.Plain c}) : Prop :=
  ∀ c', t.inputMap c=some c' → s.canonBuflen < canonBufsize ∧ (t.key c' = .eol →
    let line := s.pending++[c']
    let k := sent s.inFaults line.length
    line.take (line.length-k)=line.drop k)

private theorem sent_le (faults : List Bool) (n : Nat) : sent faults n≤n := by
  induction n generalizing faults with
  | zero => simp [sent]
  | succ n ih =>
    obtain _ | ⟨_ | _,faults⟩ := faults
    · exact Nat.succ_le_succ (ih [])
    · exact Nat.succ_le_succ (ih faults)
    · exact Nat.zero_le _

private theorem flow_dump : (settle (dumpInputBuffer s)).flow =
    s.input++(s.pending.take (sent s.inFaults s.canonBuflen) ++
      s.pending.take (s.canonBuflen-sent s.inFaults s.canonBuflen)) := by
  have hle := sent_le s.inFaults s.canonBuflen
  rw [dumpInputBuffer,settle_dumpFrom rfl]
  simp [Pty.flow,Pty.pending,← map_take,hle]

private theorem take_append_take_iff (line : List UInt8) :
    line.take k++line.take n=line ↔ line.take n=line.drop k := by
  conv_lhs =>
    rhs
    rw [← take_append_drop k line]
  exact append_right_inj _

structure Typing (t : Termios) (s : Pty) : Prop where
  tios : s.tios=t
  verbatim : s.nextIsVerbatim=false
  outFaults : s.outFaults=[]
  bound : s.canonBuflen ≤ canonBufsize

private theorem Typing.type (hi : t.icanon) (hs : Typing t s) (c : {c // t.Plain c}) :
    Typing t (s.type c) ∧ (Conserved s c ↔ Unbroken s c) := by
  obtain ⟨rfl,hv,hq,hb⟩ := id hs
  obtain ⟨c,hsi,hke⟩ := c
  have hlen : s.pending.length=s.canonBuflen := by simp [Pty.pending]
  simp only [Conserved,Unbroken]
  cases hm : s.tios.inputMap c with
  | none =>
    have heq : s.type c=s := by simp [Pty.type,ttyInputProcess,hv,hsi,hm,settle]
    rw [heq]
    exact ⟨hs,by simp⟩
  | some c' =>
    have heq : s.type c=settle (canonicalInput c' s) := by
      rw [Pty.type,ttyInputProcess_canonical rfl hv hi hsi hm]
    rcases hke c' hm with hk | hk
    · obtain ⟨s1,hs1,h1⟩ := canonicalInput_text hq hb hk
      rw [heq,hs1,settle,Pty.flow,h1.pending]
      obtain ⟨buffer,rfl,-⟩ := h1
      refine ⟨⟨rfl,hv,hq,length_take_le ..⟩,?_⟩
      simp only [Pty.flow,toList_some,append_assoc,append_cancel_left_eq,take_eq_self_iff,
        some.injEq,forall_eq',hk,reduceCtorEq,false_implies,and_true,length_append,hlen]
      exact Nat.succ_le_iff
    · obtain ⟨s1,w,hs1,h1⟩ := canonicalInput_eol hq hb hk
      have hpos : 0<canonBufsize := by decide
      rw [heq,hs1,settle,flow_dump,h1.pending]
      obtain ⟨buffer,rfl,-⟩ := h1
      constructor
      · rw [dumpInputBuffer,settle_dumpFrom rfl]
        refine ⟨rfl,hv,hq,(Nat.sub_le ..).trans ?_⟩
        simp
        omega
      simp only [some.injEq,forall_eq',hk,Pty.flow,toList_some, append_assoc]
      rcases Nat.lt_or_ge s.canonBuflen canonBufsize with hlt | hge
      · rw [take_of_length_le (show s.pending.length≤_ by omega),append_cancel_left_eq]
        rw [take_append_take_iff]
        simp [hlt]
      · refine iff_of_false (fun h => ?_) fun h => (h.1.trans_le hge).false
        have := congrArg length h
        simp at this
        omega

private theorem flow_run {bytes : List {c // t.Plain c}}
    (h : Along (fun s c => s.type c) Conserved s bytes) :
    (bytes.foldl (fun s c => s.type c) s).flow =
      s.flow++bytes.filterMap fun c => t.inputMap c := by
  induction bytes generalizing s with
  | nil => simp
  | cons c bytes ih =>
    rw [foldl_cons,ih h.2,h.1]
    cases hm : t.inputMap c <;> simp [hm]

/-- Each typed byte enters once and in order exactly if no buffer overflows and every cut
delivery leaves in the buffer what it has not delivered. -/
theorem delivery_conserves_iff (hi : t.icanon) (buffer : Nat → UInt8) (faults : List Bool)
    (bytes : List {c // t.Plain c}) : let s := { ptyNew buffer with tios := t, inFaults := faults }
    (Along (fun s c => s.type c) Conserved s bytes ↔ Along (fun s c => s.type c) Unbroken s bytes) ∧
    (Along (fun s c => s.type c) Conserved s bytes →
      (bytes.foldl (fun s c => s.type c) s).flow = bytes.filterMap fun c => t.inputMap c) := by
  have hs : Typing t { ptyNew buffer with tios := t, inFaults := faults } :=
    ⟨rfl,rfl,rfl,Nat.zero_le _⟩
  refine ⟨?_,flow_run⟩
  exact Along.congr (fun s c hs _ => (hs.type hi c).1) (fun s c hs => (hs.type hi c).2) hs

/-- The delivery of the line is cut before its first byte, and all of it stays in the buffer. -/
theorem delivery_conserves_iff_line :
    let s := { ptyNew (fun _ => 0) with tios := canonicalTermios, inFaults := [true] }
    ∃ bytes : List {c // canonicalTermios.Plain c}, bytes.map Subtype.val = [97,98,10] ∧
      (bytes.foldl (fun s c => s.type c) s).flow = [97,98,10] := by
  have h := delivery_conserves_iff (t := canonicalTermios) rfl (fun _ => 0) [true]
    [⟨97,rfl,by rintro c ⟨⟩; exact .inl rfl⟩,⟨98,rfl,by rintro c ⟨⟩; exact .inl rfl⟩,
      ⟨10,rfl,by rintro c ⟨⟩; exact .inr rfl⟩]
  refine ⟨_,rfl,h.2 (h.1.2 ⟨?_,?_,?_,trivial⟩)⟩
  all_goals
    rintro c ⟨⟩
    exact ⟨by decide,by decide⟩

theorem delivery_cut_repeats :
    ([97,98,10,10].foldl Pty.type { ptyNew (fun _ => 0) with inFaults := [false,true] }).input =
      [97,97,98,10] := by
  decide

/-! ## Echo and erasure -/

/-- A byte that the driver takes for one of the text, as which byte it does. -/
def Termios.Text (t : Termios) (c c' : UInt8) : Prop :=
  t.signalOf c=none ∧ t.inputMap c=some c' ∧ t.key c' = .text

private theorem ne_newline_of_text (h : t.key c = .text) : c≠newline := by
  simp only [Termios.key] at h
  split_ifs at h
  simp_all

def echoWidth (t : Termios) (c : UInt8) : Nat := if t.echoctl && isControl c.toNat then 2 else 1

private theorem vwidth_eq_iff : echoWidth t c≤vwidth c ∧
    (vwidth c=echoWidth t c ↔ c<128 ∧ (isControl c.toNat → t.echoctl)) := by
  rw [vwidth,echoWidth,signedChar,isControl,isControl]
  by_cases hc : c<128
  · cases t.echoctl <;> simp [hc]; split <;> simp_all
  · have hlt := c.toNat_lt
    have hge : 128≤c.toNat := by simpa [UInt8.lt_iff_toNat_lt] using hc
    have h1 : ¬(c.toNat : Int)<32 := by omega
    have h2 : (c.toNat : Int)-256<32 := by omega
    have h3 : ¬(c.toNat : Int)=127 := by omega
    simp [hc,h1,h2,h3]

private theorem sum_vwidth_eq_iff (line : List UInt8) :
    (line.map (echoWidth t)).sum≤(line.map vwidth).sum ∧
    ((line.map vwidth).sum=(line.map (echoWidth t)).sum ↔
      ∀ c∈line, c<128 ∧ (isControl c.toNat → t.echoctl)) := by
  induction line with
  | nil => simp
  | cons c line ih =>
    obtain ⟨hle,hif⟩ := vwidth_eq_iff
    rw [map_cons,map_cons,sum_cons,sum_cons,forall_mem_cons,← hif,← ih.2]
    omega

private theorem length_echoed (he : t.echo) (c : UInt8) :
    (echoed t true c).length=echoWidth t c := by
  simp only [echoed,echoWidth,he,Bool.not_true,Bool.false_eq_true,if_false,Bool.and_true]
  split <;> rfl

section Kill
variable (ho : t.opost = false) (he : t.echo) (hi : t.icanon) (ht : s.tios = t)
  (hq : s.outFaults = []) (hv : s.nextIsVerbatim = false)
include ho

theorem outputBytes_eq (w : List UInt8) : w.flatMap (outputBytes t)=w := by
  have hid : outputBytes t=fun c => [c] := by
    funext c
    simp [outputBytes,ho]
  rw [hid,flatMap_singleton']

include hi ht hq hv

theorem Edited.text (h : Edited s line w s1) (hc : t.Text c c') (hf : line.length<canonBufsize) :
    ∃ s2, ttyInputProcess c s1 = .ok s2 ∧ Edited s (line++[c']) (w++echoed t true c') s2 := by
  have hv1 : s1.nextIsVerbatim=false ∧ s1.canonBuflen≤canonBufsize := by
    obtain ⟨_,rfl,-⟩ := h
    exact ⟨hv,hf.le⟩
  have ht1 := h.tios.trans ht
  obtain ⟨s2,hs2,h2⟩ := canonicalInput_text (h.outFaults.trans hq) hv1.2 (ht1 ▸ hc.2.2)
  refine ⟨s2,?_,?_⟩
  · rw [ttyInputProcess_canonical ht1 hv1.1 hi hc.1 hc.2.1,hs2]
  · rw [ht1,outputBytes_eq ho,h.pending,take_of_length_le (by simp; omega)] at h2
    simpa [ne_newline_of_text hc.2.2] using h.trans h2

private theorem Edited.texts (hb : Forall₂ t.Text bytes new) (h : Edited s line w s1)
    (hf : line.length+new.length≤canonBufsize) :
    Edited s (line++new) (w++new.flatMap (echoed t true)) (bytes.foldl Pty.type s1) := by
  induction hb generalizing s1 line w with
  | nil => simpa using h
  | @cons c c' bytes new hc hb ih =>
    rw [length_cons] at hf
    obtain ⟨s2,hs2,h2⟩ := h.text ho hi ht hq hv hc (by omega)
    have h3 := ih h2 (by simp; omega)
    simpa [Pty.type,hs2,settle] using h3

include he

omit hi ht hq hv in
private theorem wipes_eq : wipes t true line =
    (replicate (line.map vwidth).sum [backspace,space,backspace]).flatten := by
  induction line with
  | nil => rfl
  | cons c line ih =>
    simp only [wipes,outputBytes_eq ho,he,Bool.and_true,if_true] at ih ⊢
    rw [reverse_cons,flatMap_append,ih,flatMap_singleton,wiped,← flatten_append,← replicate_add,
      map_cons,sum_cons,Nat.add_comm]

/-- Typing a line and killing it: as many columns are wiped as bytes were echoed exactly if the
line has no byte above 127 and, unless `ECHOCTL` is set, no control character. -/
theorem kill_wipes_echo_iff (hk : t.echok) (hl : s.pending = []) {bytes new : List UInt8}
    (hb : Forall₂ t.Text bytes new) (hf : bytes.length ≤ canonBufsize) {kill k : UInt8}
    (hs : t.signalOf kill = none) (hm : t.inputMap kill = some k) (hke : t.key k = .kill) :
    ∃ s1 s2 echo columns, writePtyMaster bytes s = .ok s1 ∧ writePtyMaster [kill] s1 = .ok s2 ∧
      s1.output = s.output ++ echo ∧
      s2.output = s1.output ++ (replicate columns [backspace,space,backspace]).flatten ∧
      (columns = echo.length ↔ ∀ c ∈ new, c < 128 ∧ (isControl c.toNat → t.echoctl)) := by
  have h0 := hl ▸ Edited.refl s
  have h1 := h0.texts ho hi ht hq hv hb (by simpa [hb.length_eq] using hf)
  have ht1 := h1.tios.trans ht
  have hv1 : (bytes.foldl Pty.type s).nextIsVerbatim=false := by
    obtain ⟨_,heq,-⟩ := h1
    rw [heq]
    exact hv
  have hw : writePtyMaster bytes s = .ok (bytes.foldl Pty.type s) := by
    refine writePtyMaster_eq fun c hc => ?_
    cases hb with
    | nil => cases hc
    | cons hx hb =>
      obtain rfl := some.inj hc
      obtain ⟨s2,hs2,-⟩ := h0.text ho hi ht hq hv hx (by decide)
      exact ⟨s2,hs2⟩
  obtain ⟨s2,hs2,h2⟩ := canonicalInput_kill (h1.outFaults.trans hq) (ht1 ▸ hke)
  rw [← ttyInputProcess_canonical ht1 hv1 hi hs hm] at hs2
  rw [ht1,h1.pending,hk,wipes_eq ho he] at h2
  refine ⟨_,s2,new.flatMap (echoed t true),(new.map vwidth).sum,hw,by simp [writePtyMaster,hs2],?_,
    ?_,?_⟩
  · obtain ⟨_,heq,-⟩ := h1
    simp [heq]
  · obtain ⟨_,rfl,-⟩ := h2
    simp
  · rw [length_flatMap,funext (length_echoed he)]
    exact (sum_vwidth_eq_iff new).2
end Kill

/-- The settings of a new terminal, without output processing. -/
def plainPty : Pty :=
  let pty := ptyNew fun _ => 0
  { pty with tios := { pty.tios with opost := false } }

/-- The control character is echoed in two columns. -/
theorem kill_wipes_echo_iff_control : ∃ s1 s2 echo columns,
    writePtyMaster [97,1,98] plainPty = .ok s1 ∧ writePtyMaster [21] s1 = .ok s2 ∧
      s1.output = plainPty.output ++ echo ∧
      s2.output = s1.output ++ (replicate columns [backspace,space,backspace]).flatten ∧
      (columns = echo.length ↔
        ∀ c ∈ [(97 : UInt8),1,98], c < 128 ∧ (isControl c.toNat → plainPty.tios.echoctl)) :=
  kill_wipes_echo_iff rfl rfl rfl rfl rfl rfl rfl rfl
    (.cons ⟨rfl,rfl,rfl⟩ (.cons ⟨rfl,rfl,rfl⟩ (.cons ⟨rfl,rfl,rfl⟩ .nil))) (by decide) rfl rfl rfl

/-- A byte above 127 is echoed in one column; two are wiped. -/
theorem kill_wipes_two_columns : (settle (writePtyMaster [0xE9] plainPty)).output = [0xE9] ∧
    (settle (writePtyMaster [0xE9,21] plainPty)).output =
      0xE9 :: (replicate 2 [backspace,space,backspace]).flatten := by
  decide
end RazionOS.Kernel.Vfs.Tty
