import RfidStation.Nrf
import RfidStation.Lib.Runs

/-! The channel byte of a packet (receive/receiver.c, nrf.c). The radio is a receive FIFO
whose frames remember the channel they arrived on; the switching thread sets current_channel
and configures the radio, on_irq reads current_channel and then the radio, and frames arrive
in between. One transaction is one step. -/
namespace RfidStation.ChannelTag
open Cstr Config Receiver Nrf

structure Frame where
  channel : UInt8
  payload : Bytes
  deriving DecidableEq, Repr

structure Radio where
  ce : Bool
  channel : UInt8
  sta : UInt8
  fifo : List Frame
  deriving DecidableEq, Repr

-- A flag of STATUS is cleared by writing 1 to it.
def Radio.write (r : Radio) (reg value : UInt8) : Radio :=
  if reg = writeReg + status then {r with sta := r.sta &&& ~~~value}
  else if reg = writeReg + rfCh then {r with channel := value}
  else if reg = flushRx then {r with fifo := []}
  else r

def Radio.exec (r : Radio) : Op → Radio
  | .ce state => {r with ce := state}
  | .spiWriteReg reg value => r.write reg value
  | .flushRx => r.write flushRx 0
  | .spiReadBuf reg _ => if reg = rdRxPload then {r with fifo := r.fifo.tail} else r
  | .spiRead _ => r
  | .spiWriteBuf .. => r

def Radio.arrive (r : Radio) (payload : Bytes) : Radio :=
  {r with fifo := r.fifo ++ [⟨r.channel,payload⟩], sta := r.sta ||| 0x40}

/- A buffer given to add_to_queue, and the frame its payload was read from, if any. -/
structure Added where
  buf : Bytes
  frame : Option Frame
  deriving DecidableEq, Repr

/- on_irq under irq_lock: the first byte of buf, what RxPacket has read, the calls to come. -/
structure Irq where
  tag : UInt8
  received : Option Added
  ops : List Op
  deriving DecidableEq, Repr

structure State where
  currentChannel : UInt8
  bufSize : UInt8
  radio : Radio
  switcher : List Op
  irq : Option Irq
  added : List Added
  deriving DecidableEq, Repr

inductive Act where
  | arrive (payload : Bytes)
  | switch (adr : Addresses) (conf : Conf) (station : UInt8) (again : Nat)
  | init
  | onIrq
  | rxPacket (stale : Bytes)
  | addToQueue
  deriving DecidableEq, Repr

def initial (radio : Radio) : State := ⟨0,0,radio,[],none,[]⟩

-- RD_RX_PLOAD on an empty FIFO returns bytes of no frame.
def readPayload (tag : UInt8) (stale : Bytes) : List Frame → Added
  | [] => ⟨irqPacket tag stale,none⟩
  | frame :: _ => ⟨irqPacket tag frame.payload,some frame⟩

def rxStep (s : State) (i : Irq) (stale : Bytes) : Op → List Op → State
  | .spiRead reg, rest => {s with
      irq := some {i with ops := if reg = status then rxPacket s.bufSize s.radio.sta else rest}}
  | .spiReadBuf reg bytes, rest => {s with
      radio := s.radio.exec (.spiReadBuf reg bytes)
      irq := some {i with received := some (readPayload i.tag stale s.radio.fifo), ops := rest}}
  | op, rest => {s with radio := s.radio.exec op, irq := some {i with ops := rest}}

def step (s : State) : Act → Option State
  | .arrive payload => if s.radio.ce then some {s with radio := s.radio.arrive payload} else none
  | .switch adr conf station again => if s.switcher = [] then some {s with
      currentChannel := station
      bufSize := regConf conf "RX_PLOAD_WIDTH"
      switcher := initNrf adr conf station again} else none
  | .init => match s.switcher with
    | op :: rest => some {s with radio := s.radio.exec op, switcher := rest}
    | [] => none
  | .onIrq => match s.irq with
    | none => some {s with irq := some ⟨s.currentChannel,none,rxStatus⟩}
    | some _ => none
  | .rxPacket stale => match s.irq with
    | some ⟨tag,received,op :: rest⟩ => some (rxStep s ⟨tag,received,op :: rest⟩ stale op rest)
    | _ => none
  | .addToQueue => match s.irq with
    | some ⟨_,received,[]⟩ => some {s with irq := none, added := s.added ++ received.toList}
    | _ => none

def WellTagged (p : Added) : Prop := ∃ frame, p.frame = some frame ∧ p.buf.head? = some frame.channel

def Tagged (s : State) : Prop := ∀ p ∈ s.added, WellTagged p

def reads : Op → Bool
  | .spiRead _ => true
  | .spiReadBuf .. => true
  | _ => false

def awaiting (s : State) : Bool := s.irq.any (fun i => i.ops.any reads)

def readsPayload (s : State) : Bool := s.irq.any (fun i => match i.ops with
  | .spiReadBuf .. :: _ => true
  | _ => false)

def retunes : List Op → Option UInt8
  | .spiWriteReg reg value :: _ => if reg = writeReg + rfCh then some value else none
  | _ => none

/-- on_irq reads current_channel when it is the channel of the radio and of every frame in
the FIFO; the radio is not tuned to another channel until the payload is read; and the payload
is read from a frame. -/
def Separate (s : State) : Act → Prop
  | .onIrq => s.radio.channel = s.currentChannel ∧
      ∀ frame ∈ s.radio.fifo, frame.channel = s.currentChannel
  | .init => awaiting s → ∀ value, retunes s.switcher = some value → value = s.radio.channel
  | .rxPacket _ => readsPayload s → s.radio.fifo ≠ []
  | _ => True

instance (s : State) (a : Act) : Decidable (Separate s a) := by
  unfold Separate
  split
  · infer_instance
  · exact @forall_prop_decidable _ _ inferInstance (fun _ => Option.decidableForallMem _)
  · infer_instance
  · infer_instance

theorem execFifo (r : Radio) (op : Op) {frame : Frame} (mem : frame ∈ (r.exec op).fifo) :
    frame ∈ r.fifo := by
  cases op with
  | ce state => exact mem
  | spiWriteReg reg value =>
    simp only [Radio.exec,Radio.write] at mem
    split at mem
    · exact mem
    · split at mem
      · exact mem
      · split at mem
        · exact absurd mem List.not_mem_nil
        · exact mem
  | spiRead reg => exact mem
  | spiReadBuf reg bytes =>
    simp only [Radio.exec] at mem
    split at mem
    · exact List.mem_of_mem_tail mem
    · exact mem
  | spiWriteBuf reg buf bytes => exact mem
  | flushRx => exact absurd mem List.not_mem_nil

theorem execChannel (r : Radio) (op : Op) (rest : List Op) :
    (r.exec op).channel = (retunes (op :: rest)).getD r.channel := by
  cases op with
  | spiWriteReg reg value =>
    simp only [Radio.exec,Radio.write,retunes]
    split
    · rename_i clears
      rw [if_neg (by rw [clears]; decide)]
      rfl
    · split
      · rfl
      · split <;> rfl
  | spiReadBuf reg bytes =>
    simp only [Radio.exec,retunes]
    split <;> rfl
  | _ => rfl

structure Inv (s : State) : Prop where
  tagged : Tagged s
  received : ∀ i p, s.irq = some i → i.received = some p → WellTagged p
  tuned : ∀ i, s.irq = some i → i.ops.any reads → s.radio.channel = i.tag ∧
    ∀ frame ∈ s.radio.fifo, frame.channel = i.tag
  program : ∀ i, s.irq = some i → ∀ op ∈ i.ops, retunes [op] = none

theorem initialInv (radio : Radio) : Inv (initial radio) := by
  constructor <;> simp [initial,Tagged]

section Steps
variable {s t : State}

theorem stepArrive {payload} (h : step s (.arrive payload) = some t) :
    t = {s with radio := s.radio.arrive payload} :=
  (Runs.guarded h).2

theorem stepSwitch {adr conf station again} (h : step s (.switch adr conf station again) = some t) :
    t = {s with
      currentChannel := station
      bufSize := regConf conf "RX_PLOAD_WIDTH"
      switcher := initNrf adr conf station again} :=
  (Runs.guarded h).2

theorem stepInit (h : step s .init = some t) : ∃ op rest, s.switcher = op :: rest ∧
    t = {s with radio := s.radio.exec op, switcher := rest} := by
  simp only [step] at h
  split at h <;> try contradiction
  exact ⟨_,_,‹_›,(Option.some.inj h).symm⟩

theorem stepOnIrq (h : step s .onIrq = some t) :
    t = {s with irq := some ⟨s.currentChannel,none,rxStatus⟩} := by
  simp only [step] at h
  split at h <;> try contradiction
  exact (Option.some.inj h).symm

theorem stepRxPacket {stale} (h : step s (.rxPacket stale) = some t) :
    ∃ tag received op rest, s.irq = some ⟨tag,received,op :: rest⟩ ∧
      t = rxStep s ⟨tag,received,op :: rest⟩ stale op rest := by
  simp only [step] at h
  split at h <;> try contradiction
  exact ⟨_,_,_,_,‹_›,(Option.some.inj h).symm⟩

theorem stepAddToQueue (h : step s .addToQueue = some t) :
    ∃ tag received, s.irq = some ⟨tag,received,[]⟩ ∧
      t = {s with irq := none, added := s.added ++ received.toList} := by
  simp only [step] at h
  split at h <;> try contradiction
  exact ⟨_,_,‹_›,(Option.some.inj h).symm⟩

end Steps

theorem rxPacketProgram (bytes sta : UInt8) : ∀ op ∈ rxPacket bytes sta, retunes [op] = none := by
  intro op mem
  simp only [rxPacket] at mem
  rcases List.mem_append.mp mem with payload | rest
  · split at payload
    · rw [List.mem_singleton.mp payload]; rfl
    · exact absurd payload List.not_mem_nil
  · rcases List.mem_cons.mp rest with rfl | rest
    · rfl
    · rcases List.mem_cons.mp rest with rfl | rest
      · rfl
      · rw [List.mem_singleton.mp rest]; rfl

theorem rxInv {s t : State} {stale} (inv : Inv s) (separate : Separate s (.rxPacket stale))
    (h : step s (.rxPacket stale) = some t) : Inv t := by
  obtain ⟨tag,received,op,rest,here,rfl⟩ := stepRxPacket h
  obtain ⟨tagged,held,tuned,program⟩ := inv
  have before (p : Added) (got : received = some p) : WellTagged p := held _ p here got
  have later : ∀ o ∈ rest, retunes [o] = none :=
    fun o mem => program _ here o (List.mem_cons_of_mem _ mem)
  have kept : (s.radio.exec op).channel = s.radio.channel := by
    have first := program _ here op List.mem_cons_self
    rw [execChannel s.radio op [],first]
    rfl
  have still (more : rest.any reads) : (s.radio.exec op).channel = tag ∧
      ∀ frame ∈ (s.radio.exec op).fifo, frame.channel = tag := by
    have now := tuned _ here (by rw [List.any_cons,more,Bool.or_true])
    exact ⟨kept.trans now.1,fun frame mem => now.2 frame (execFifo _ _ mem)⟩
  have plain (same : rxStep s ⟨tag,received,op :: rest⟩ stale op rest =
      {s with radio := s.radio.exec op, irq := some ⟨tag,received,rest⟩}) :
      Inv (rxStep s ⟨tag,received,op :: rest⟩ stale op rest) := by
    rw [same]
    exact ⟨tagged,fun i p now => by cases now; exact before p,
      fun i now more => by cases now; exact still more,fun i now => by cases now; exact later⟩
  cases op with
  | spiRead reg =>
    have untouched := tuned _ here rfl
    refine ⟨tagged,fun i p now => by cases now; exact before p,?_,?_⟩
    · intro i now _
      cases now
      exact untouched
    · intro i now
      cases now
      simp only
      split
      · exact rxPacketProgram _ _
      · exact later
  | spiReadBuf reg bytes =>
    refine ⟨tagged,?_,fun i now more => by cases now; exact still more,
      fun i now => by cases now; exact later⟩
    intro i p now got
    cases now
    cases Option.some.inj got
    have some_frame : s.radio.fifo ≠ [] := separate (by rw [readsPayload,here]; rfl)
    obtain ⟨frame,others,fifo⟩ := List.exists_cons_of_ne_nil some_frame
    have own := (tuned _ here rfl).2 frame (by rw [fifo]; exact List.mem_cons_self)
    rw [fifo]
    exact ⟨frame,rfl,congrArg some own.symm⟩
  | ce state => exact plain rfl
  | spiWriteReg reg value => exact plain rfl
  | spiWriteBuf reg buf bytes => exact plain rfl
  | flushRx => exact plain rfl

theorem stepInv {s t : State} {a} (inv : Inv s) (separate : Separate s a)
    (h : step s a = some t) : Inv t := by
  obtain ⟨tagged,held,tuned,program⟩ := inv
  cases a with
  | arrive payload =>
    obtain rfl := stepArrive h
    refine ⟨tagged,held,?_,program⟩
    intro i here more
    obtain ⟨own,all⟩ := tuned i here more
    refine ⟨own,fun frame mem => ?_⟩
    rcases List.mem_append.mp mem with before | new
    · exact all frame before
    · rw [List.mem_singleton.mp new]; exact own
  | switch adr conf station again =>
    obtain rfl := stepSwitch h
    exact ⟨tagged,held,tuned,program⟩
  | init =>
    obtain ⟨op,rest,here,rfl⟩ := stepInit h
    refine ⟨tagged,held,?_,program⟩
    intro i irq more
    obtain ⟨own,all⟩ := tuned i irq more
    refine ⟨?_,fun frame mem => all frame (execFifo _ _ mem)⟩
    rw [execChannel s.radio op rest]
    cases tune : retunes (op :: rest) with
    | none => exact own
    | some value =>
      have waiting : awaiting s = true := by
        rw [awaiting,show s.irq = some i from irq]
        exact more
      exact (separate waiting value (by rw [here]; exact tune)).trans own
  | onIrq =>
    obtain rfl := stepOnIrq h
    refine ⟨tagged,?_,?_,?_⟩
    · intro i p now got
      cases now
      cases got
    · intro i now _
      cases now
      exact separate
    · intro i now op mem
      cases now
      rcases List.mem_cons.mp mem with rfl | rest
      · rfl
      · rw [List.mem_singleton.mp rest]; rfl
  | rxPacket stale => exact rxInv ⟨tagged,held,tuned,program⟩ separate h
  | addToQueue =>
    obtain ⟨tag,received,here,rfl⟩ := stepAddToQueue h
    refine ⟨?_,by simp,by simp,by simp⟩
    intro p mem
    rcases List.mem_append.mp mem with before | new
    · exact tagged p before
    · exact held _ p here (Option.mem_toList.mp new)

def onIrqAlone (stale : Bytes) : List Act :=
  .onIrq :: List.replicate 6 (.rxPacket stale) ++ [.addToQueue]

theorem aloneAdds {s : State} (free : s.irq = none) (flagged : rxDr s.radio.sta) (stale : Bytes) :
    ∃ t, Runs.exec step s (onIrqAlone stale) = some t ∧
      t.added = s.added ++ [readPayload s.currentChannel stale s.radio.fifo] := by
  have alone : onIrqAlone stale = [.onIrq,.rxPacket stale,.rxPacket stale] ++
      (List.replicate 4 (.rxPacket stale) ++ [.addToQueue]) := rfl
  have asked : Runs.exec step s [.onIrq,.rxPacket stale,.rxPacket stale] = some {s with
      radio := s.radio.exec (.ce false)
      irq := some ⟨s.currentChannel,none,rxPacket s.bufSize s.radio.sta⟩} := by
    simp only [Runs.exec,step,free,Option.bind_some]
    rfl
  have program : rxPacket s.bufSize s.radio.sta = [.spiReadBuf rdRxPload s.bufSize,
      .spiWriteReg flushRx 0,.spiWriteReg (writeReg + status) s.radio.sta,.ce true] := by
    rw [rxPacket,if_pos flagged]
    rfl
  rw [alone,Runs.execAppend,asked,program]
  exact ⟨_,rfl,rfl⟩

theorem wellTaggedRead (tag : UInt8) (stale : Bytes) (fifo : List Frame) :
    WellTagged (readPayload tag stale fifo) ↔
      ∃ frame, fifo.head? = some frame ∧ frame.channel = tag := by
  cases fifo with
  | nil => simp [WellTagged,readPayload]
  | cons frame rest => simp [WellTagged,readPayload,irqPacket,eq_comm]

/-- In a run in which on_irq and the switching thread keep apart, every packet added carries
the channel that its payload was received on; and on_irq alone adds such a packet exactly if
the first frame in the FIFO is of current_channel. -/
theorem taggedIfSeparate (radio : Radio) (acts : List Act) :
    (Runs.Meets step Separate (initial radio) acts →
      Runs.Always step Tagged (initial radio) acts) ∧
    ∀ s stale, s.irq = none → rxDr s.radio.sta → Tagged s →
      ∃ t, Runs.exec step s (onIrqAlone stale) = some t ∧
        (Tagged t ↔ ∃ frame, s.radio.fifo.head? = some frame ∧ frame.channel = s.currentChannel) := by
  constructor
  · exact Runs.alwaysUnder (fun _ inv => inv.tagged) (fun _ _ _ => stepInv) (initialInv radio)
  · intro s stale free flagged tagged
    obtain ⟨t,run,added⟩ := aloneAdds free flagged stale
    refine ⟨t,run,?_⟩
    rw [← wellTaggedRead s.currentChannel stale s.radio.fifo,Tagged,added]
    constructor
    · exact fun all => all _ (List.mem_append_right _ (List.mem_singleton_self _))
    · intro own p mem
      rcases List.mem_append.mp mem with before | new
      · exact tagged p before
      · rw [List.mem_singleton.mp new]; exact own

def silent : Radio := ⟨false,2,0,[]⟩

def tuneTo (channel : UInt8) : List Act :=
  .switch ⟨[],[]⟩ [] channel 0 :: List.replicate 17 .init

theorem taggedIfSeparateOne : Runs.Always step Tagged (initial silent)
    (tuneTo 50 ++ .arrive [7,7] :: onIrqAlone []) :=
  (taggedIfSeparate silent _).1 (by decide)

def retagged : List Act :=
  tuneTo 50 ++ .arrive [7,7] :: .switch ⟨[],[]⟩ [] 60 0 :: onIrqAlone []

theorem oldChannelRetagged : ¬ ∀ (radio : Radio) (acts : List Act),
    Runs.Always step Tagged (initial radio) acts := by
  intro claim
  have seen : (Runs.exec step (initial silent) retagged).map State.added =
      some [⟨[60,7,7],some ⟨50,[7,7]⟩⟩] := by decide
  obtain ⟨t,run,added⟩ := Option.map_eq_some_iff.mp seen
  have tagged := Runs.alwaysLast (claim silent retagged) run
  obtain ⟨frame,from_frame,first⟩ := tagged _ (by rw [added]; exact List.mem_singleton_self _)
  cases from_frame
  exact absurd first (by decide)

end RfidStation.ChannelTag
