import RfidStation.SendQueue
import RfidStation.Sessions

/-! The receiver: on_irq (receiver.c) queues the channel and the payload that the radio
delivered, whose width init_NRF24L01 (nrf.c) reads from the configuration in base 16, and
do_send (sender.c) sends heartbeats of a width that it reads in base 10. -/
namespace RfidStation.Receiver
open Cstr Config Buffers SendQueue

def nrfConf (conf : Conf) (name : String) : Int :=
  strtol 16 (getConfig conf (ascii "nrf." ++ ascii name))

def rxPloadWidth (conf : Conf) : Int := nrfConf conf "RX_PLOAD_WIDTH"

-- SPI_write_reg takes an `uchar`.
def programmedWidth (conf : Conf) : Nat := (rxPloadWidth conf % 256).toNat

def irqPacket (channel : UInt8) (rxBuf : Bytes) : Bytes := channel :: rxBuf

def xorBytes (bytes : Bytes) : UInt8 := bytes.foldl (· ^^^ ·) 0

def received (conf : Conf) (stream : Bytes) : Bytes := stream.take (Merger.packetSize conf).toNat

def ReachesHandleStudent (conf : Conf) (stream : Bytes) : Prop :=
  ∀ s now i, Merger.msgLoopPacket conf s now (received conf stream) i =
    Merger.handleStudent s now (Hex.sprintBuf (received conf stream)) i

theorem reachesIffAccepted (conf : Conf) (stream : Bytes) :
    ReachesHandleStudent conf stream ↔ Sessions.Accepted conf (received conf stream) := by
  constructor
  · intro reaches
    by_contra rejected
    have here := reaches Merger.initial ⟨0,by decide⟩ false
    rw [Sessions.msgLoopPacketCases,if_neg rejected] at here
    exact List.cons_ne_nil _ _ (congrArg Merger.State.students here).symm
  · intro accepted s now i
    rw [Sessions.msgLoopPacketCases,if_pos accepted]

theorem xorBytesCons (channel : UInt8) (payload : Bytes) :
    xorBytes (irqPacket channel payload) = channel ^^^ xorBytes payload := by
  have shifted : payload.foldl (· ^^^ ·) (channel ^^^ 0) = channel ^^^ payload.foldl (· ^^^ ·) 0 :=
    List.foldl_assoc
  rw [UInt8.xor_zero] at shifted
  rw [xorBytes,irqPacket,List.foldl_cons,UInt8.zero_xor,shifted,xorBytes]

theorem receivedIrq {conf : Conf} {channel : UInt8} {payload : Bytes}
    (size : Merger.packetSize conf = payload.length + 1) :
    received conf (irqPacket channel payload) = irqPacket channel payload :=
  List.take_of_length_le (by rw [irqPacket,List.length_cons]; omega)

theorem reachesIffChannel {conf : Conf} {channel : UInt8} {payload : Bytes}
    (size : Merger.packetSize conf = payload.length + 1)
    (checksum : getInt conf "student.checksum_enable" = 1)
    (filter : getInt conf "student.first_byte_zero_enable" = 0) (tagged : channel ≠ 0) :
    ReachesHandleStudent conf (irqPacket channel payload) ↔ xorBytes payload = channel := by
  have sum : (irqPacket channel payload).foldl (· ^^^ ·) 0 = channel ^^^ xorBytes payload :=
    xorBytesCons channel payload
  rw [reachesIffAccepted,receivedIrq size,Sessions.Accepted,sum,checksum,filter]
  simp only [ne_eq,not_true,if_false,UInt8.xor_eq_zero_iff]
  constructor
  · exact fun accepted => (accepted.2 (by decide)).symm
  · exact fun same => ⟨tagged,fun _ => same.symm⟩

/-- For a non-zero channel the merger counts the packets whose payload sums to the channel, so
it agrees with the checksum of the card exactly if the sum is neither 0 nor the channel. -/
theorem checksumAgreesIff (conf : Conf) (n : Nat)
    (size : Merger.packetSize conf = n + 1) (checksum : getInt conf "student.checksum_enable" = 1)
    (filter : getInt conf "student.first_byte_zero_enable" = 0) (channel : UInt8)
    (tagged : channel ≠ 0) (payload : Merger.Packet n) :
    (ReachesHandleStudent conf (irqPacket channel payload.val) ↔ xorBytes payload.val = 0) ↔
      xorBytes payload.val ≠ 0 ∧ xorBytes payload.val ≠ channel := by
  rw [reachesIffChannel (by rw [payload.property]; exact size) checksum filter tagged]
  constructor
  · intro agree
    refine ⟨fun zero => ?_,fun same => ?_⟩
    · exact tagged ((agree.mpr zero).symm.trans zero)
    · exact tagged (same.symm.trans (agree.mp same))
  · exact fun ⟨nonzero,other⟩ => ⟨fun same => (other same).elim,fun zero => (nonzero zero).elim⟩

def shippedFilter : Conf :=
  addConfig (addConfig (addConfig [] (ascii "student.packet_size") (ascii "3"))
    (ascii "student.checksum_enable") (ascii "1")) (ascii "student.first_byte_zero_enable") (ascii "0")

theorem checksumAgreesDamaged :
    (ReachesHandleStudent shippedFilter (irqPacket 50 [1,2]) ↔ xorBytes [1,2] = 0) ↔
      xorBytes [1,2] ≠ 0 ∧ xorBytes [1,2] ≠ 50 :=
  checksumAgreesIff shippedFilter 2 (by decide) (by decide) (by decide) 50 (by decide)
    ⟨[1,2],rfl⟩

theorem validCardDropped :
    ¬ (ReachesHandleStudent shippedFilter (irqPacket 50 [1,1]) ↔ xorBytes [1,1] = 0) := by
  rw [reachesIffChannel (by decide) (by decide) (by decide) (by decide)]
  decide

/- `undefined` is set once on_irq has declared an array of no positive length. -/
structure Station where
  sender : Sender UInt8
  undefined : Bool
  deriving DecidableEq, Repr

inductive Act where
  | onIrq (channel : UInt8) (rxBuf : Bytes)
  | take
  | send
  deriving DecidableEq, Repr

def start : Station := ⟨{SendQueue.initial with sockfd := some 0, pc := .take},false⟩

def senderStep (conf : Conf) (s : Station) (a : SendQueue.Act UInt8) : Option Station :=
  (SendQueue.step (packetSize conf) 0 s.sender a).map (fun sender => {s with sender := sender})

def step (conf : Conf) (s : Station) : Act → Option Station
  | .onIrq channel rxBuf =>
    if 1 + rxPloadWidth conf < 1 then some {s with undefined := true}
    else if (rxBuf.length : Int) = rxPloadWidth conf then
      senderStep conf s (.addToQueue (irqPacket channel rxBuf))
    else none
  | .take => senderStep conf s .take
  | .send => senderStep conf s (.send s.sender.sendbuf.cells.length)

def stream (s : Station) : Bytes := s.sender.sent.flatMap Batch.cells

structure OneFrameSize (size : Nat) (s : Station) : Prop where
  defined : s.undefined = false
  packets : ∀ packet ∈ s.sender.added, packet.length = size
  heartbeats : ∀ batch ∈ s.sender.sent, batch.heartbeat = true → batch.cells = heartbeat size 0
  whole : size ∣ (stream s).length
  batches : Blocks.blocks size (stream s) =
    s.sender.sent.flatMap (fun batch => Blocks.blocks size batch.cells)
  inOrder : s.sender.sent.flatMap (fun batch => Blocks.blocks size batch.data) ++
    Blocks.blocks size s.sender.pendingData ++ Blocks.blocks size s.sender.queue.cells =
      s.sender.added

structure Feeding (size : Nat) (s : Station) : Prop where
  defined : s.undefined = false
  conserved : Conserved size 0 s.sender
  framed : Framed size 0 s.sender

theorem startFeeding {size : Nat} (pos : 0 < size) : Feeding size start := by
  have connected : SendQueue.step size 0 SendQueue.initial (.connect (some 0)) = some start.sender := rfl
  exact ⟨rfl,stepConserved (initialConserved size 0) connected,
    stepFramed pos (initialFramed pos) (by simp) connected⟩

theorem dataWhole {size : Nat} {batch : Batch UInt8} (whole : size ∣ batch.cells.length) :
    size ∣ batch.data.length := by
  unfold Batch.data
  split
  · exact Nat.dvd_zero _
  · exact whole

theorem feedingFrames {size : Nat} (pos : 0 < size) {s : Station} (feeding : Feeding size s) :
    OneFrameSize size s := by
  have sentData : ∀ batch ∈ s.sender.sent, size ∣ batch.data.length :=
    fun batch mem => dataWhole (feeding.framed.batches batch mem)
  have pending : size ∣ s.sender.pendingData.length := by
    have whole := feeding.framed.pending
    unfold Sender.pendingData
    unfold Sender.pending at whole
    split at whole
    · rename_i unsent
      rw [if_pos unsent]; exact dataWhole whole
    · rename_i sent
      rw [if_neg sent]; exact whole
  refine ⟨feeding.defined,feeding.framed.packets,feeding.conserved.heartbeats,
    Blocks.flatMapWhole feeding.framed.batches,Blocks.blocksFlatMap pos feeding.framed.batches,?_⟩
  have queued := congrArg (Blocks.blocks size) feeding.conserved.inOrder
  rw [Blocks.blocksFlatten pos feeding.framed.packets,List.append_assoc,
    Blocks.blocksAppend pos (Blocks.flatMapWhole sentData),Blocks.blocksFlatMap pos sentData,
    Blocks.blocksAppend pos pending,← List.append_assoc] at queued
  exact queued

theorem senderFeeding {conf : Conf} {size : Nat} (pos : 0 < size) (same : packetSize conf = size)
    {s t : Station} {a} (feeding : Feeding size s)
    (packet : ∀ buf, a = .addToQueue buf → buf.length = size)
    (h : senderStep conf s a = some t) : Feeding size t := by
  unfold senderStep at h
  rw [same] at h
  obtain ⟨sender,moved,rfl⟩ := Option.map_eq_some_iff.mp h
  exact ⟨feeding.defined,stepConserved feeding.conserved moved,
    stepFramed pos feeding.framed packet moved⟩

theorem stepFeeding {conf : Conf} {size : Nat} (pos : 0 < size) (same : packetSize conf = size)
    (width : 1 + rxPloadWidth conf = size) {s t : Station} {a} (feeding : Feeding size s)
    (h : step conf s a = some t) : Feeding size t := by
  cases a with
  | onIrq channel rxBuf =>
    simp only [step] at h
    rw [if_neg (by omega)] at h
    split at h <;> try contradiction
    rename_i filled
    refine senderFeeding pos same feeding (fun buf is => ?_) h
    cases is
    rw [irqPacket,List.length_cons]; omega
  | take => exact senderFeeding pos same feeding (by simp) h
  | send => exact senderFeeding pos same feeding (by simp) h

theorem setting (conf : Conf) :
    rxPloadWidth conf = strtol 16 (getConfig conf (ascii "nrf.RX_PLOAD_WIDTH")) := by
  rw [rxPloadWidth,nrfConf]
  rfl

theorem firstIrq {conf : Conf} {channel : UInt8} {rxBuf : Bytes}
    (filled : (rxBuf.length : Int) = rxPloadWidth conf) : ∃ s,
      Runs.exec (step conf) start [.onIrq channel rxBuf] = some s ∧
      s.sender.added = [irqPacket channel rxBuf] := by
  have fits : ¬ 1 + rxPloadWidth conf < 1 := by omega
  simp only [Runs.exec,step,if_neg fits,if_pos filled]
  exact ⟨_,rfl,rfl⟩

theorem firstHeartbeat {conf : Conf} (fits : ¬ packetSize conf < 0) : ∃ s,
    Runs.exec (step conf) start [.take,.send] = some s ∧
    s.sender.sent = [⟨true,heartbeat (packetSize conf).toNat 0⟩] := by
  simp [Runs.exec,step,senderStep,SendQueue.step,start,SendQueue.initial,takeBatch,empty,fits,
    afterSend]

/-- All runs keep one frame size exactly if the setting is one decimal digit. -/
theorem framesAgreeIff (conf : Conf)
    (width : 1 ≤ programmedWidth conf ∧ programmedWidth conf ≤ 32) :
    (∀ acts s, Runs.exec (step conf) start acts = some s →
      OneFrameSize (1 + programmedWidth conf) s) ↔
    oneDecimalDigit (getConfig conf (ascii "nrf.RX_PLOAD_WIDTH")) = true := by
  have pos : 0 < 1 + programmedWidth conf := by omega
  have programmed : (programmedWidth conf : Int) = rxPloadWidth conf % 256 :=
    Int.toNat_of_nonneg (Int.emod_nonneg _ (by decide))
  constructor
  · intro agree
    have nonneg : 0 ≤ rxPloadWidth conf := by
      by_contra negative
      have run : Runs.exec (step conf) start [.onIrq 0 []] = some {start with undefined := true} := by
        simp only [Runs.exec,step,if_pos (show 1 + rxPloadWidth conf < 1 by omega)]
        rfl
      exact absurd (agree _ _ run).defined (by simp)
    have width16 : rxPloadWidth conf = programmedWidth conf := by
      obtain ⟨s,run,added⟩ := @firstIrq conf 0 (List.replicate (rxPloadWidth conf).toNat 0)
        (by rw [List.length_replicate]; exact Int.toNat_of_nonneg nonneg)
      have size := (agree _ s run).packets (irqPacket 0 _) (by rw [added]; exact List.mem_singleton_self _)
      rw [irqPacket,List.length_cons,List.length_replicate] at size
      omega
    have reads := atoiNonneg (s := getConfig conf (ascii "nrf.RX_PLOAD_WIDTH"))
      (by rw [← setting]; omega)
    have fits : ¬ packetSize conf < 0 := by unfold packetSize getInt; omega
    have width10 : packetSize conf = 1 + programmedWidth conf := by
      obtain ⟨s,run,sent⟩ := firstHeartbeat fits
      have same := (agree _ s run).heartbeats _ (by rw [sent]; exact List.mem_singleton_self _) rfl
      have size := congrArg List.length same
      rw [heartbeat,heartbeat,List.length_replicate,List.length_replicate] at size
      omega
    refine (sameReading ?_ ?_).mp ?_
    · rw [← setting]; omega
    · rw [← setting]; omega
    · rw [← setting,width16]
      unfold packetSize getInt at width10
      omega
  · intro one acts s run
    have value := oneDecimalDigitValue one
    have decimal := (sameReading (by omega) (by omega)).mpr one
    rw [← setting] at value decimal
    refine feedingFrames pos (Runs.invariant (I := Feeding (1 + programmedWidth conf)) ?_
      (startFeeding pos) run)
    refine fun s a t feeding h => stepFeeding pos ?_ ?_ feeding h
    · rw [packetSize,getInt,decimal]; omega
    · omega

def width (text : String) : Conf := addConfig [] (ascii "nrf.RX_PLOAD_WIDTH") (ascii text)

theorem framesAgreeNine : ∃ s, Runs.exec (step (width "9")) start
      [.onIrq 50 [1,2,3,4,5,6,7,8,9],.take,.send,.take,.send] = some s ∧
    (stream s).length = 20 ∧ OneFrameSize 10 s := by
  have seen : (Runs.exec (step (width "9")) start
      [.onIrq 50 [1,2,3,4,5,6,7,8,9],.take,.send,.take,.send]).map (fun s => (stream s).length) =
      some 20 := by decide +kernel
  obtain ⟨s,run,len⟩ := Option.map_eq_some_iff.mp seen
  exact ⟨s,run,len,(framesAgreeIff (width "9") (by decide)).mpr (by decide) _ s run⟩

theorem shortHeartbeat :
    ¬ ∀ conf, 1 ≤ programmedWidth conf ∧ programmedWidth conf ≤ 32 → ∀ acts s,
      Runs.exec (step conf) start acts = some s → OneFrameSize (1 + programmedWidth conf) s := by
  intro claim
  have seen : (Runs.exec (step (width "10")) start [.take,.send]).map (fun s => (stream s).length) =
      some 11 := by decide
  obtain ⟨s,run,len⟩ := Option.map_eq_some_iff.mp seen
  have whole := (claim (width "10") (by decide) _ s run).whole
  rw [len] at whole
  exact absurd whole (by decide)

end RfidStation.Receiver
