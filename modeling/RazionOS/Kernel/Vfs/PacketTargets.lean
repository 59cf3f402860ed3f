import RazionOS.Kernel.Vfs.Packetfs

/-!
# Whom a server write reaches

The target of a server write is an address from user space, and `write_server` reads a client
there before it knows that there is one. Memory that holds no client may change at any time.
-/

namespace RazionOS.Kernel.Vfs.PacketTargets
open Function List Except Option

open Packetfs (Packet pointerSize maxPacketSize Queue)

/-- `pex_client_t`; the serial number, which tells clients apart, is not in memory. -/
structure Client where
  serial : Nat
  /-- The address of the exchange, 0 once its server has closed. -/
  parent : Nat
  queue : List Packet

/-- What is at an address, as far as it is read for the field `parent`. -/
inductive Cell where
  | unmapped
  | other (word : Nat)
  /-- A client that has been freed, with what is left of its first word. -/
  | freed (word : Nat)
  | client (c : Client)

/-- `pex_ex_t`; `packets` are those in the server's pipe. -/
structure Exchange where
  clients : List Nat
  packets : List Packet

structure World where
  cells : Nat → Cell
  exchanges : Nat → Option Exchange
  serial : Nat

def World.setCell (w : World) (a : Nat) (cell : Cell) : World :=
  { w with cells := update w.cells a cell }

def World.setExchange (w : World) (p : Nat) (ex : Option Exchange) : World :=
  { w with exchanges := update w.exchanges p ex }

inductive Fault where
  | pageFault
  /-- A pipe is taken from memory that holds no client. -/
  | wildPipe

/-- `touched` has the addresses at which the call has read or written a client. -/
structure Result where
  value : Int
  world : World
  touched : List Nat

/-- What `pipe_unsize` gives for a pipe with the given number of pointers. -/
def available (count : Nat) : Nat := 4095-pointerSize*count
def Client.hasRoom (c : Client) : Bool := pointerSize≤available c.queue.length

/-- `send_to_client`, with its result. -/
def Client.send (c : Client) (data : List UInt8) : Int × Client :=
  if c.hasRoom then (data.length, { c with queue := c.queue++[⟨none,data.length,data⟩] })
  else (-1, c)

def headerSize : Nat := 8

/-- The test is `size - sizeof(header_t) > MAX_PACKET_SIZE` without a sign. -/
def sizeOk (size : Nat) : Bool := headerSize ≤ size && size - headerSize ≤ maxPacketSize

def broadcast (w : World) (ex : Exchange) (data : List UInt8) : World :=
  { w with cells := fun a =>
      if a∈ex.clients then
        match w.cells a with
        | .client c => .client (c.send data).2
        | cell => cell
      else w.cells a }

/-- `write_server` for the exchange at `p`; the data behind the header are `size - 8` bytes. -/
def writeServer (w : World) (p size target : Nat) (data : List UInt8) : Except Fault Result :=
  if !sizeOk size then .ok ⟨-1,w,[]⟩
  else if target=0 then
    match w.exchanges p with
    | none => .ok ⟨-1,w,[]⟩
    | some ex => .ok ⟨size,broadcast w ex data,ex.clients⟩
  else match w.cells target with
    | .unmapped => .error .pageFault
    | .other word | .freed word =>
      if word≠p then .ok ⟨-1,w,[target]⟩ else .error .wildPipe
    | .client c =>
      if c.parent≠p then .ok ⟨-1,w,[target]⟩
      else
        let (sent, c') := c.send data
        .ok ⟨sent+headerSize,w.setCell target (.client c'),[target]⟩

def Cell.isClient : Cell → Bool
  | .client _ => true
  | _ => false

def openServer (w : World) (p : Nat) : World :=
  if p=0 ∨ (w.exchanges p).isSome then w
  else w.setExchange p (some ⟨[],[]⟩)

def openClient (w : World) (p a : Nat) : World :=
  match w.exchanges p with
  | none => w
  | some ex =>
    if a=0 ∨ (w.cells a).isClient then w
    else
      let w' := w.setCell a (.client ⟨w.serial,p,[]⟩)
      { w'.setExchange p (some { ex with clients := ex.clients++[a] }) with
        serial := w.serial+1 }

def sendToServer (w : World) (p : Nat) (packet : Packet) : World :=
  match w.exchanges p with
  | none => w
  | some ex =>
    w.setExchange p (some { ex with packets := ex.packets++[packet] })

def closeClient (w : World) (a word : Nat) : World :=
  match w.cells a with
  | .client c =>
    match w.exchanges c.parent with
    | none => w.setCell a (.freed word)
    | some ex =>
      (w.setExchange c.parent (some ⟨ex.clients.erase a,ex.packets++[⟨some a,0,[]⟩]⟩)).setCell a
        (.freed word)
  | _ => w

def writeClient (w : World) (a : Nat) (data : List UInt8) : World :=
  match w.cells a with
  | .client c =>
    if data.length ≤ maxPacketSize then sendToServer w c.parent ⟨some a,data.length,data⟩ else w
  | _ => w

def readClient (w : World) (a : Nat) : World :=
  match w.cells a with
  | .client c =>
    w.setCell a (.client { c with queue := c.queue.tail })
  | _ => w

def readServer (w : World) (p : Nat) : World :=
  match w.exchanges p with
  | none => w
  | some ex =>
    w.setExchange p (some { ex with packets := ex.packets.tail })

def closeServer (w : World) (p : Nat) : World :=
  match w.exchanges p with
  | none => w
  | some ex =>
    { w with
      cells := fun a =>
        if a∈ex.clients then
          match w.cells a with
          | .client c => .client { (c.send []).2 with parent := 0 }
          | cell => cell
        else w.cells a
      exchanges := update w.exchanges p none }

inductive Event where
  | openServer (p : Nat)
  | openClient (p a : Nat)
  | closeClient (a word : Nat)
  | writeClient (a : Nat) (data : List UInt8)
  | readClient (a : Nat)
  | readServer (p : Nat)
  | writeServer (p size target : Nat) (data : List UInt8)
  | closeServer (p : Nat)
  /-- Memory that holds no client is used by somebody else. -/
  | memory (a : Nat) (word : Option Nat)

def step (w : World) : Event → Except Fault World
  | .openServer p => .ok (openServer w p)
  | .openClient p a => .ok (openClient w p a)
  | .closeClient a word => .ok (closeClient w a word)
  | .writeClient a data => .ok (writeClient w a data)
  | .readClient a => .ok (readClient w a)
  | .readServer p => .ok (readServer w p)
  | .writeServer p size target data =>
    if (w.exchanges p).isSome then Result.world <$> writeServer w p size target data else .ok w
  | .closeServer p => .ok (closeServer w p)
  | .memory a word =>
    if (w.cells a).isClient then .ok w else .ok (w.setCell a (word.elim .unmapped .other))

def run (w : World) : List Event → Except Fault World
  | [] => .ok w
  | e::events => step w e >>= fun w => run w events

def boot : World := ⟨fun _ => .unmapped,fun _ => none,0⟩

def Connected (w : World) (p target meant : Nat) : Prop :=
  ∃ c ex, w.cells target = .client c ∧ c.serial=meant ∧ w.exchanges p=some ex ∧ target∈ex.clients

def Client.push (c : Client) (data : List UInt8) : Client :=
  { c with queue := c.queue++[⟨none,data.length,data⟩] }

/-- A client or what is left of one. -/
def Cell.isObject : Cell → Bool
  | .client _ | .freed _ => true
  | _ => false

/-- A connected client gets the packet; for any other target the call fails. -/
def Reaches (w : World) (p target meant : Nat) (data : List UInt8) : Except Fault Result → Prop
  | .error _ => False
  | .ok r =>
    (∀ c, Connected w p target meant → w.cells target = .client c → 0 ≤ r.value ∧
      r.world=w.setCell target (.client (c.push data))) ∧
    (¬ Connected w p target meant → r.value<0 ∧ r.world=w ∧
      ∀ a∈r.touched, (w.cells a).isObject=false)

/-- The size can be sent, and the client that is meant is there with room or the address has never
been a client's; or the size is refused, and the client that is meant is not connected. -/
def Proper (w : World) (p size target meant : Nat) : Prop :=
  if sizeOk size then
    (∃ c, w.cells target = .client c ∧ c.serial=meant ∧ c.parent=p ∧ c.hasRoom=true) ∨
      ∃ word, w.cells target = .other word ∧ word≠p
  else ¬ Connected w p target meant

def Cell.parent : Cell → Option Nat
  | .client c => some c.parent
  | _ => none

@[simp] theorem Cell.parent_client : (Cell.client c).parent=some c.parent := rfl

@[simp] theorem Cell.parent_freed : (Cell.freed word).parent=none := rfl

/-- An exchange lists exactly the clients that have it as their parent. -/
structure Inv (w : World) : Prop where
  mem_iff : ∀ p ex, w.exchanges p=some ex → ∀ a, a∈ex.clients ↔ (w.cells a).parent=some p
  nodup : ∀ p ex, w.exchanges p=some ex → ex.clients.Nodup
  parent_open : ∀ a p, (w.cells a).parent=some p → p≠0 → (w.exchanges p).isSome
  zero : w.exchanges 0=none

private theorem boot_inv : Inv boot := ⟨nofun,nofun,nofun,rfl⟩

theorem Inv.congr (h : Inv w) (hce : ∀ a, (w'.cells a).parent=(w.cells a).parent)
    (hexchanges : ∀ p, (w'.exchanges p).map Exchange.clients =
      (w.exchanges p).map Exchange.clients) : Inv w' := by
  have hold : ∀ {p ex}, w'.exchanges p=some ex →
      ∃ ex', w.exchanges p=some ex' ∧ ex'.clients=ex.clients := by
    intro p ex hex
    have := hexchanges p
    rw [hex,map_some,eq_comm,map_eq_some_iff] at this
    exact this
  refine ⟨fun p ex hex a => ?_,fun p ex hex => ?_,fun a p ha hp => ?_,?_⟩
  · obtain ⟨ex',hex',hc⟩ := hold hex
    rw [← hc,hce,h.mem_iff p ex' hex']
  · obtain ⟨ex',hex',hc⟩ := hold hex
    exact hc ▸ h.nodup p ex' hex'
  · have hs := h.parent_open a p (hce a ▸ ha) hp
    have := congrArg isSome (hexchanges p)
    rw [isSome_map,isSome_map] at this
    rw [this,hs]
  · have := hexchanges 0
    rw [h.zero,map_none,map_eq_none_iff] at this
    exact this

theorem Inv.setCell (h : Inv w) (hc : cell.parent=(w.cells a).parent) : Inv (w.setCell a cell) := by
  refine h.congr (fun b => ?_) fun _ => rfl
  by_cases hb : b=a
  · subst hb
    simp [World.setCell,hc]
  · simp [World.setCell,hb]

theorem Inv.setExchange (h : Inv w) (hex : w.exchanges p=some ex) (hc : ex'.clients=ex.clients) :
    Inv (w.setExchange p (some ex')) := by
  refine h.congr (fun _ => rfl) fun q => ?_
  by_cases hq : q=p
  · subst hq
    simp [World.setExchange,hex,hc]
  · simp [World.setExchange,hq]

/-- A call that connects or disconnects clients of one exchange only. -/
theorem Inv.change (h : Inv w) (hp : p≠0) (hexchanges : ∀ q, q≠p → w'.exchanges q=w.exchanges q)
    (hc : ∀ a q, q≠p → q≠0 → ((w'.cells a).parent=some q ↔ (w.cells a).parent=some q))
    (hcl : ∀ ex, w'.exchanges p=some ex →
      ex.clients.Nodup ∧ ∀ a, a∈ex.clients ↔ (w'.cells a).parent=some p)
    (ho : ∀ a, (w'.cells a).parent=some p → (w'.exchanges p).isSome) : Inv w' where
  mem_iff q ex hex a := by
    by_cases hqp : q=p
    · subst hqp
      exact (hcl ex hex).2 a
    rw [hexchanges q hqp] at hex
    have hq : q≠0 := by
      rintro rfl
      rw [h.zero] at hex
      cases hex
    rw [hc a q hqp hq,h.mem_iff q ex hex]
  nodup q ex hex := by
    by_cases hqp : q=p
    · subst hqp
      exact (hcl ex hex).1
    · exact h.nodup q ex (hexchanges q hqp ▸ hex)
  parent_open a q ha hq := by
    by_cases hqp : q=p
    · subst hqp
      exact ho a ha
    · rw [hexchanges q hqp]
      exact h.parent_open a q ((hc a q hqp hq).1 ha) hq
  zero := (hexchanges 0 hp.symm).trans h.zero

theorem Inv.ne_zero (h : Inv w) (hex : w.exchanges p=some ex) : p≠0 := by
  rintro rfl
  rw [h.zero] at hex
  cases hex

theorem parent_setCell (w : World) (a : Nat) (cell : Cell) (b : Nat) :
    ((w.setCell a cell).cells b).parent=if b=a then cell.parent else (w.cells b).parent := by
  simp only [World.setCell,update_apply]
  split <;> rfl

private theorem openServer_inv (h : Inv w) : Inv (openServer w p) := by
  rw [openServer]
  split
  · exact h
  rename_i hp
  rw [not_or] at hp
  have hno : w.exchanges p=none := by simpa using hp.2
  have hn : ∀ a, (w.cells a).parent≠some p := by
    intro a ha
    have := h.parent_open a p ha hp.1
    simp [hno] at this
  refine h.change hp.1 (fun q hqp => update_of_ne hqp _ _) (fun _ _ _ _ => Iff.rfl) ?_ ?_
  · intro ex hex
    obtain rfl : (⟨[],[]⟩ : Exchange)=ex := by simpa [World.setExchange] using hex
    exact ⟨nodup_nil,fun a => iff_of_false not_mem_nil (hn a)⟩
  · exact fun a ha => absurd ha (hn a)

private theorem openClient_inv (h : Inv w) : Inv (openClient w p a) := by
  rw [openClient]
  cases hex : w.exchanges p with
  | none => exact h
  | some ex =>
    simp only
    split
    · exact h
    rename_i ha
    have hp : (w.cells a).parent=none := by
      cases hce : w.cells a with
      | client c => simp [hce,Cell.isClient] at ha
      | _ => rfl
    have hn : a∉ex.clients := by simp [h.mem_iff p ex hex,hp]
    have hc := parent_setCell w a (.client ⟨w.serial,p,[]⟩)
    refine h.change (h.ne_zero hex) (fun q hqp => update_of_ne hqp _ _) ?_ ?_ ?_
    · intro b q hqp _
      refine (Eq.congr_left (hc b)).trans ?_
      split
      · next hba => simp [hba,hp,Ne.symm hqp]
      · rfl
    · intro ex' hex'
      obtain rfl : { ex with clients := ex.clients++[a] }=ex' := by
        simpa [World.setExchange] using hex'
      refine ⟨?_,fun b => ?_⟩
      · rw [← concat_eq_append]
        exact (h.nodup p ex hex).concat hn
      refine Iff.trans ?_ (Eq.congr_left (hc b)).symm
      rw [mem_append,h.mem_iff p ex hex]
      split
      · next hba => simp [hba]
      · next hba => simp [hba]
    · simp [World.setExchange]

private theorem closeClient_inv (h : Inv w) : Inv (closeClient w a word) := by
  rw [closeClient]
  cases hce : w.cells a with
  | client c =>
    have hp : (w.cells a).parent=some c.parent := by rw [hce]; rfl
    have hc := parent_setCell w a (.freed word)
    -- the client has no other exchange
    have ho : ∀ b q, q≠c.parent →
        (((w.setCell a (.freed word)).cells b).parent=some q ↔ (w.cells b).parent=some q) := by
      intro b q hq
      rw [hc]
      split
      · next hba => simp [hba,hp,Ne.symm hq]
      · rfl
    cases hex : w.exchanges c.parent with
    | none =>
      simp only [hex]
      refine ⟨fun q ex hq b => ?_,h.nodup,fun b q hb hq => ?_,h.zero⟩
      · have hne : q≠c.parent := by
          rintro rfl
          cases hex.symm.trans hq
        rw [ho b q hne,h.mem_iff q ex hq]
      · rw [hc] at hb
        split at hb
        · cases hb
        · exact h.parent_open b q hb hq
    | some ex =>
      simp only [hex]
      refine h.change (h.ne_zero hex) (fun q hqp => update_of_ne hqp _ _)
        (fun b q hq _ => ho b q hq) ?_ ?_
      · intro ex' hex'
        obtain rfl : (⟨ex.clients.erase a,ex.packets++[⟨some a,0,[]⟩]⟩ : Exchange)=ex' := by
          simpa [World.setExchange,World.setCell] using hex'
        refine ⟨(h.nodup _ ex hex).erase a,fun b => ?_⟩
        refine Iff.trans ?_ (Eq.congr_left (hc b)).symm
        rw [(h.nodup _ ex hex).mem_erase_iff,h.mem_iff _ ex hex]
        split
        · next hba => simp [hba]
        · next hba => simp [hba]
      · simp [World.setExchange,World.setCell]
  | _ => exact h

private theorem closeServer_inv (h : Inv w) : Inv (closeServer w p) := by
  rw [closeServer]
  cases hex : w.exchanges p with
  | none => exact h
  | some ex =>
    have hce : ∀ b, b∈ex.clients → ∃ c, w.cells b = .client c ∧ c.parent=p := by
      intro b hb
      rw [h.mem_iff p ex hex] at hb
      cases hc : w.cells b with
      | client c => exact ⟨c,rfl,by simpa [hc] using hb⟩
      | _ => simp [hc,Cell.parent] at hb
    have hp := h.ne_zero hex
    refine h.change hp (fun q hqp => update_of_ne hqp _ _) ?_ ?_ ?_
    · intro b q hqp hq
      by_cases hb : b∈ex.clients
      · obtain ⟨c,hc,hpa⟩ := hce b hb
        simp [hb,hc,hpa,Ne.symm hqp,Ne.symm hq]
      · simp [hb]
    · intro ex' hex'
      simp at hex'
    · intro b hb
      by_cases hmem : b∈ex.clients
      · obtain ⟨c,hc,-⟩ := hce b hmem
        simp only [hmem,if_true,hc,Cell.parent_client,some.injEq] at hb
        exact absurd hb.symm hp
      · simp only [hmem] at hb
        exact absurd ((h.mem_iff p ex hex b).2 hb) hmem

@[simp] theorem Client.parent_send (c : Client) : (c.send data).2.parent=c.parent := by
  rw [Client.send]
  split <;> rfl

private theorem writeServer_inv (h : Inv w) (hr : writeServer w p size target data = .ok r) :
    Inv r.world := by
  rw [writeServer] at hr
  split at hr
  · cases hr
    exact h
  split at hr
  · split at hr
    · cases hr
      exact h
    · cases hr
      refine h.congr (fun a => ?_) fun _ => rfl
      simp only [broadcast]
      split
      · cases hc : w.cells a with
        | client c => simp
        | _ => rfl
      · rfl
  · cases hc : w.cells target with
    | unmapped => simp [hc] at hr
    | other word | freed word =>
      simp only [hc] at hr
      split at hr
      · cases hr
        exact h
      · cases hr
    | client c =>
      simp only [hc] at hr
      split at hr
      · cases hr
        exact h
      · cases hr
        exact h.setCell (by simp [hc])

private theorem sendToServer_inv (h : Inv w) : Inv (sendToServer w p packet) := by
  rw [sendToServer]
  cases hex : w.exchanges p with
  | none => exact h
  | some ex => exact h.setExchange hex rfl

private theorem step_inv (h : Inv w) (he : step w e = .ok w') : Inv w' := by
  cases e with
  | openServer p => exact ok.inj he ▸ openServer_inv h
  | openClient p a => exact ok.inj he ▸ openClient_inv h
  | closeClient a word => exact ok.inj he ▸ closeClient_inv h
  | writeClient a data =>
    obtain rfl := ok.inj he
    rw [writeClient]
    split
    · split
      · exact sendToServer_inv h
      · exact h
    · exact h
  | readClient a =>
    obtain rfl := ok.inj he
    rw [readClient]
    cases hce : w.cells a with
    | client c => exact h.setCell (by simp [hce])
    | _ => exact h
  | readServer p =>
    obtain rfl := ok.inj he
    rw [readServer]
    cases hex : w.exchanges p with
    | none => exact h
    | some ex => exact h.setExchange hex rfl
  | writeServer p size target data =>
    rw [step] at he
    split at he
    · cases hr : writeServer w p size target data with
      | error fault => simp [hr] at he
      | ok r =>
        simp only [hr,Functor.map,Except.map,ok.injEq] at he
        exact he ▸ writeServer_inv h hr
    · exact ok.inj he ▸ h
  | closeServer p => exact ok.inj he ▸ closeServer_inv h
  | memory a word =>
    rw [step] at he
    split at he
    · exact ok.inj he ▸ h
    rename_i hce
    refine ok.inj he ▸ h.setCell ?_
    have hn : (w.cells a).parent=none := by
      cases hc : w.cells a with
      | client c => simp [hc,Cell.isClient] at hce
      | _ => rfl
    rw [hn]
    cases word <;> rfl

private theorem run_inv (h : Inv w) (hru : run w events = .ok w') : Inv w' := by
  induction events generalizing w with
  | nil => exact ok.inj hru ▸ h
  | cons e events ih =>
    obtain ⟨w1,hs,hr⟩ := Framework.bind_eq_ok.1 hru
    exact ih (step_inv h hs) hr

section Reaches
variable {w : World} {p size target meant : Nat}

theorem Inv.connected_iff (h : Inv w) (hex : w.exchanges p=some ex) : Connected w p target meant ↔
      ∃ c, w.cells target = .client c ∧ c.serial=meant ∧ c.parent=p := by
  constructor
  · rintro ⟨c,ex',hc,hs,hex',hmem⟩
    refine ⟨c,hc,hs,?_⟩
    rw [h.mem_iff p ex' hex',hc] at hmem
    exact some.inj hmem
  · rintro ⟨c,hc,hs,hp⟩
    refine ⟨c,ex,hc,hs,hex,?_⟩
    rw [h.mem_iff p ex hex,hc,Cell.parent_client,hp]

private theorem setCell_ne_push :
    w.setCell target (.client c)≠w.setCell target (.client (c.push data)) := by
  intro heq
  have hc := congrFun (congrArg World.cells heq) target
  simp only [World.setCell,update_self,Cell.client.injEq] at hc
  have hlen := congrArg (fun c => c.queue.length) hc
  simp [Client.push] at hlen

private theorem reaches_client_iff (h : Inv w) (hex : w.exchanges p=some ex)
    (hsi : sizeOk size=true) (ht : target≠0) (hc : w.cells target = .client c) :
    Reaches w p target meant data (writeServer w p size target data) ↔
      c.serial=meant ∧ c.parent=p ∧ c.hasRoom=true := by
  have hco : Connected w p target meant ↔ c.serial=meant ∧ c.parent=p := by
    rw [h.connected_iff hex]
    simp [hc]
  have ho : (w.cells target).isObject=true := by rw [hc]; rfl
  simp only [writeServer,hsi,ht,hc]
  by_cases hp : c.parent=p
  swap
  · rw [if_pos hp]
    refine iff_of_false ?_ fun hr => hp hr.2.1
    rintro ⟨-,hf⟩
    have := (hf fun hcn => hp (hco.1 hcn).2).2.2 target mem_cons_self
    rw [ho] at this
    cases this
  rw [if_neg (not_not.2 hp)]
  have hv : ¬ (c.send data).1 + (headerSize : Int)<0 := by
    rw [Client.send]
    split <;> simp [headerSize]
    omega
  by_cases hs : c.serial=meant
  swap
  · refine iff_of_false ?_ fun hr => hs hr.1
    rintro ⟨-,hf⟩
    exact hv (hf fun hcn => hs (hco.1 hcn).1).1
  have hm := hco.2 ⟨hs,hp⟩
  by_cases hro : c.hasRoom=true
  · refine iff_of_true ⟨fun c' _ hc' => ?_,fun hcn => absurd hm hcn⟩ ⟨hs,hp,hro⟩
    obtain rfl : c=c' := by simpa [hc] using hc'
    refine ⟨Int.not_lt.1 hv,?_⟩
    simp only [Client.send,hro,if_true]
    rfl
  · refine iff_of_false ?_ fun hr => hro hr.2.2
    rintro ⟨hse,-⟩
    have hw := (hse c hm hc).2
    rw [Client.send,if_neg hro] at hw
    exact setCell_ne_push hw

def closedEvents : List Event :=
  [.openServer 1, .openClient 1 100, .writeClient 100 [7], .readServer 1, .closeClient 100 0]

end Reaches
end RazionOS.Kernel.Vfs.PacketTargets
