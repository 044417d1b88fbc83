import RfidStation.Config
import RfidStation.Lib.Blocks
import RfidStation.Lib.Buffer
import RfidStation.Lib.Runs

/-! The receiver's sender (receive/sender.c): add_to_queue appends under lock_sender, and
cron_send connects, takes a batch under the lock and sends it. A batch whose send stopped
short is sent again, whole, on the next connection. `added` and `sent` are history: the
buffers given to add_to_queue, and the batches whose send completed. -/
namespace RfidStation.SendQueue
open Cstr Config Buffers

def packetSize (conf : Conf) : Int := 1 + getInt conf "nrf.RX_PLOAD_WIDTH"

/- Program points of cron_send: try_connect, the locked part of do_send, and its send.
`abort` is an exit through ASSERT or safe_malloc. -/
inductive Pc where
  | connect | take | send | abort
  deriving DecidableEq, Repr

structure Batch (β : Type) where
  heartbeat : Bool
  cells : List β
  deriving DecidableEq, Repr

structure Sender (β : Type) where
  queue : Buffer β
  lastok : Bool
  sendbuf : Batch β
  sockfd : Option Nat
  pc : Pc
  added : List (List β)
  sent : List (Batch β)
  deriving DecidableEq, Repr

inductive Act (β : Type) where
  | addToQueue (buf : List β)
  | connect (fd : Option Nat)
  | take
  | send (sendedlen : Int)
  deriving DecidableEq, Repr

variable {β : Type}

def initial : Sender β := ⟨empty,true,⟨false,[]⟩,none,.connect,[],[]⟩

def heartbeat (size : Nat) (zero : β) : List β := List.replicate size zero

-- The locked part of do_send. A negative heartbeat length makes safe_malloc fail.
def takeBatch (size : Int) (zero : β) (s : Sender β) : Sender β :=
  if s.lastok then
    if s.queue.cells.length = 0 then
      if size < 0 then {s with pc := .abort}
      else {s with sendbuf := ⟨true,heartbeat size.toNat zero⟩, pc := .send}
    else {s with
      sendbuf := ⟨false,s.queue.cells⟩
      queue := s.queue.shrink s.queue.cells.length
      pc := .send}
  else {s with pc := .send}

def afterSend (s : Sender β) (sendedlen : Int) : Sender β :=
  if sendedlen < s.sendbuf.cells.length then {s with lastok := false, sockfd := none, pc := .connect}
  else {s with lastok := true, pc := .take, sent := s.sent ++ [s.sendbuf]}

def step (size : Int) (zero : β) (s : Sender β) : Act β → Option (Sender β)
  | .addToQueue buf => some {s with queue := s.queue.append buf, added := s.added ++ [buf]}
  | .connect fd => if s.pc = .connect then
      match s.sockfd, fd with
      | some _, _ => some {s with pc := .abort}
      | none, none => some s
      | none, some n => some {s with sockfd := some n, pc := .take} else none
  | .take => if s.pc = .take then some (takeBatch size zero s) else none
  | .send sendedlen =>
      if s.pc = .send ∧ -1 ≤ sendedlen ∧ sendedlen ≤ s.sendbuf.cells.length then
        some (afterSend s sendedlen) else none

section Steps
variable {size : Int} {zero : β} {s t : Sender β}

theorem stepAdd {buf : List β} (h : step size zero s (.addToQueue buf) = some t) :
    t = {s with queue := s.queue.append buf, added := s.added ++ [buf]} :=
  (Option.some.inj h).symm

theorem stepConnect {fd : Option Nat} (h : step size zero s (.connect fd) = some t) :
    s.pc = .connect ∧ (s.sockfd.isSome ∧ t = {s with pc := .abort} ∨
      s.sockfd = none ∧ (fd = none ∧ t = s ∨
        ∃ n, fd = some n ∧ t = {s with sockfd := some n, pc := .take})) := by
  obtain ⟨here,moved⟩ := Option.ite_none_right_eq_some.mp h
  refine ⟨here,?_⟩
  split at moved <;> obtain rfl := Option.some.inj moved
  · exact .inl ⟨by simp [*],rfl⟩
  · exact .inr ⟨‹_›,.inl ⟨rfl,rfl⟩⟩
  · exact .inr ⟨‹_›,.inr ⟨_,rfl,rfl⟩⟩

theorem stepTake (h : step size zero s .take = some t) :
    s.pc = .take ∧ t = takeBatch size zero s :=
  Runs.guarded h

theorem stepSend {sendedlen : Int} (h : step size zero s (.send sendedlen) = some t) :
    (s.pc = .send ∧ -1 ≤ sendedlen ∧ sendedlen ≤ s.sendbuf.cells.length) ∧
      t = afterSend s sendedlen :=
  Runs.guarded h

end Steps

def accepted (s : Sender β) (sendedlen : Int) : List β := s.sendbuf.cells.take sendedlen.toNat

@[simp] theorem takeSockfd {size : Int} {zero : β} (s : Sender β) :
    (takeBatch size zero s).sockfd = s.sockfd := by
  unfold takeBatch
  split <;> try rfl
  split <;> try rfl
  split <;> rfl

@[simp] theorem takeSent {size : Int} {zero : β} (s : Sender β) :
    (takeBatch size zero s).sent = s.sent := by
  unfold takeBatch
  split <;> try rfl
  split <;> try rfl
  split <;> rfl

theorem afterSendSockfd {s : Sender β} {fd : Nat} (using_it : s.sockfd = some fd)
    (sendedlen : Int) : (afterSend s sendedlen).sockfd =
      if sendedlen < s.sendbuf.cells.length then none else some fd := by
  unfold afterSend
  split
  · rfl
  · exact using_it

theorem acceptedFull {s : Sender β} {sendedlen : Int} (full : ¬ sendedlen < s.sendbuf.cells.length) :
    accepted s sendedlen = s.sendbuf.cells :=
  List.take_of_length_le (by omega)

def Sender.unsent (s : Sender β) : Prop := s.pc = .send ∨ s.lastok = false

instance (s : Sender β) : Decidable s.unsent := inferInstanceAs (Decidable (_ ∨ _))

def Sender.pending (s : Sender β) : List β := if s.unsent then s.sendbuf.cells else []

/-! First in, first out: the batches that are no heartbeats carry what was added, in order. -/

def Batch.data (batch : Batch β) : List β := if batch.heartbeat then [] else batch.cells

def Sender.pendingData (s : Sender β) : List β := if s.unsent then s.sendbuf.data else []

structure Conserved (size : Int) (zero : β) (s : Sender β) : Prop where
  inOrder : s.sent.flatMap Batch.data ++ s.pendingData ++ s.queue.cells = s.added.flatten
  heartbeats : ∀ batch ∈ s.sent, batch.heartbeat = true → batch.cells = heartbeat size.toNat zero
  beating : s.unsent → s.sendbuf.heartbeat = true → s.sendbuf.cells = heartbeat size.toNat zero

theorem initialConserved (size : Int) (zero : β) : Conserved size zero initial := by
  constructor <;> simp [initial,Sender.pendingData,Sender.unsent,empty]

theorem takeConserved {size : Int} {zero : β} {s : Sender β} (here : s.pc = .take)
    (conserved : Conserved size zero s) : Conserved size zero (takeBatch size zero s) := by
  obtain ⟨inOrder,heartbeats,beating⟩ := conserved
  unfold takeBatch
  split
  · rename_i ok
    simp only [Sender.pendingData,Sender.unsent,here,ok,reduceCtorEq,or_self,if_false,
      List.append_nil] at inOrder
    split
    · rename_i none_queued
      split
      · refine ⟨?_,heartbeats,by simp [Sender.unsent,ok]⟩
        simpa [Sender.pendingData,Sender.unsent,ok] using inOrder
      · refine ⟨?_,heartbeats,fun _ _ => rfl⟩
        simpa [Sender.pendingData,Sender.unsent,Batch.data] using inOrder
    · refine ⟨?_,heartbeats,by simp⟩
      rw [shrinkAll]
      simpa [Sender.pendingData,Sender.unsent,Batch.data] using inOrder
  · rename_i failed
    refine ⟨?_,heartbeats,fun _ => beating (.inr (by simpa using failed))⟩
    simpa [Sender.pendingData,Sender.unsent,failed] using inOrder

theorem sendConserved {size : Int} {zero : β} {s : Sender β} (here : s.pc = .send)
    (sendedlen : Int) (conserved : Conserved size zero s) :
    Conserved size zero (afterSend s sendedlen) := by
  obtain ⟨inOrder,heartbeats,beating⟩ := conserved
  simp only [Sender.pendingData,Sender.unsent,here,true_or,if_true] at inOrder
  unfold afterSend
  split
  · refine ⟨?_,heartbeats,fun _ => beating (.inl here)⟩
    simpa [Sender.pendingData,Sender.unsent] using inOrder
  · refine ⟨?_,?_,by simp [Sender.unsent]⟩
    · simpa [Sender.pendingData,Sender.unsent] using inOrder
    · intro batch mem beat
      rcases List.mem_append.mp mem with before | new
      · exact heartbeats batch before beat
      · rw [List.mem_singleton.mp new] at beat ⊢
        exact beating (.inl here) beat

theorem stepConserved {size : Int} {zero : β} {s t : Sender β} {a}
    (conserved : Conserved size zero s) (h : step size zero s a = some t) :
    Conserved size zero t := by
  cases a with
  | addToQueue buf =>
    obtain rfl := stepAdd h
    obtain ⟨inOrder,heartbeats,beating⟩ := conserved
    refine ⟨?_,heartbeats,beating⟩
    rw [List.flatten_append,← inOrder,List.flatten_singleton,appendCells,← List.append_assoc]
    rfl
  | connect fd =>
    obtain ⟨here,outcome⟩ := stepConnect h
    obtain ⟨inOrder,heartbeats,beating⟩ := conserved
    simp only [Sender.pendingData,Sender.unsent,here,reduceCtorEq,false_or] at inOrder beating
    obtain ⟨-,rfl⟩ | ⟨-,⟨-,rfl⟩ | ⟨n,-,rfl⟩⟩ := outcome
    · exact ⟨by simpa [Sender.pendingData,Sender.unsent] using inOrder,heartbeats,
        by simpa [Sender.unsent] using beating⟩
    · exact ⟨by simpa [Sender.pendingData,Sender.unsent,here] using inOrder,heartbeats,
        by simpa [Sender.unsent,here] using beating⟩
    · exact ⟨by simpa [Sender.pendingData,Sender.unsent] using inOrder,heartbeats,
        by simpa [Sender.unsent] using beating⟩
  | take =>
    obtain ⟨here,rfl⟩ := stepTake h
    exact takeConserved here conserved
  | send sendedlen =>
    obtain ⟨here,rfl⟩ := stepSend h
    exact sendConserved here.1 sendedlen conserved

/-! Framing: when the buffers given to add_to_queue are whole packets, so are the batches, and
the packets that are no heartbeats go from the queue to the sent batches in order. -/

variable [DecidableEq β]

def dataFrames (size : Nat) (zero : β) (cells : List β) : List (List β) :=
  (Blocks.blocks size cells).filter (· ≠ heartbeat size zero)

def batchFrames (size : Nat) (zero : β) (batches : List (Batch β)) : List (List β) :=
  batches.flatMap (fun batch => dataFrames size zero batch.cells)

variable {size : Nat} {zero : β}

theorem dataFramesAppend (pos : 0 < size) {s : List β} (whole : size ∣ s.length) (t : List β) :
    dataFrames size zero (s ++ t) = dataFrames size zero s ++ dataFrames size zero t := by
  rw [dataFrames,Blocks.blocksAppend pos whole,List.filter_append]; rfl

theorem dataFramesShort {s : List β} (short : s.length < size) : dataFrames size zero s = [] := by
  rw [dataFrames,Blocks.blocksShort short]; rfl

theorem dataFramesOne (pos : 0 < size) {s : List β} (one : s.length = size) :
    dataFrames size zero s = [s].filter (· ≠ heartbeat size zero) := by
  rw [dataFrames,Blocks.blocksOne pos one]

theorem dataFramesHeartbeat (pos : 0 < size) : dataFrames size zero (heartbeat size zero) = [] := by
  have one : (heartbeat size zero).length = size := List.length_replicate
  rw [dataFramesOne pos one]
  simp

structure Framed (size : Nat) (zero : β) (s : Sender β) : Prop where
  queue : size ∣ s.queue.cells.length
  pending : size ∣ s.pending.length
  connected : s.sockfd = none ↔ s.pc = .connect
  alive : s.pc ≠ .abort
  packets : ∀ packet ∈ s.added, packet.length = size
  batches : ∀ batch ∈ s.sent, size ∣ batch.cells.length
  inOrder : batchFrames size zero s.sent ++ dataFrames size zero s.pending ++
    dataFrames size zero s.queue.cells = s.added.filter (· ≠ heartbeat size zero)

theorem initialFramed (pos : 0 < size) : Framed size zero initial := by
  constructor <;> simp [initial,Sender.pending,Sender.unsent,empty,batchFrames,dataFramesShort (s := []) pos]

theorem takeFramed (pos : 0 < size) {s : Sender β} (here : s.pc = .take)
    (framed : Framed size zero s) : Framed size zero (takeBatch size zero s) := by
  have connected := framed.connected
  have inOrder := framed.inOrder
  simp only [here,reduceCtorEq,iff_false] at connected
  unfold takeBatch
  split
  · rename_i ok
    have nothing : s.pending = [] := by simp [Sender.pending,Sender.unsent,here,ok]
    rw [nothing,dataFramesShort (s := []) pos,List.append_nil] at inOrder
    split
    · rename_i none_queued
      rw [if_neg (by omega)]
      have quiet : dataFrames size zero s.queue.cells = [] := dataFramesShort (by omega)
      refine ⟨framed.queue,?_,by simp [connected],by simp,framed.packets,framed.batches,?_⟩
      · simp [Sender.pending,Sender.unsent,heartbeat]
      · simp only [Sender.pending,Sender.unsent,true_or,if_true,Int.toNat_natCast,dataFramesHeartbeat pos,
          List.append_nil]
        exact inOrder
    · refine ⟨?_,?_,by simp [connected],by simp,framed.packets,framed.batches,?_⟩
      · rw [shrinkAll]; exact Nat.dvd_zero _
      · simpa [Sender.pending,Sender.unsent] using framed.queue
      · simp only [Sender.pending,Sender.unsent,true_or,if_true,shrinkAll,dataFramesShort (s := []) pos,
          List.append_nil]
        exact inOrder
  · rename_i failed
    have same : s.pending = s.sendbuf.cells := by simp [Sender.pending,Sender.unsent,failed]
    have whole := framed.pending
    rw [same] at whole inOrder
    refine ⟨framed.queue,?_,by simp [connected],by simp,framed.packets,framed.batches,?_⟩
    · simpa [Sender.pending,Sender.unsent] using whole
    · simpa [Sender.pending,Sender.unsent] using inOrder

theorem sendFramed (pos : 0 < size) {s : Sender β} (here : s.pc = .send) (sendedlen : Int)
    (framed : Framed size zero s) : Framed size zero (afterSend s sendedlen) := by
  have same : s.pending = s.sendbuf.cells := by simp [Sender.pending,Sender.unsent,here]
  have connected := framed.connected
  have whole := framed.pending
  have inOrder := framed.inOrder
  simp only [here,reduceCtorEq,iff_false] at connected
  rw [same] at whole inOrder
  unfold afterSend
  split
  · refine ⟨framed.queue,?_,by simp,by simp,framed.packets,framed.batches,?_⟩
    · simpa [Sender.pending,Sender.unsent] using whole
    · simpa [Sender.pending,Sender.unsent] using inOrder
  · refine ⟨framed.queue,?_,by simp [connected],by simp,framed.packets,?_,?_⟩
    · simp [Sender.pending,Sender.unsent]
    · intro batch mem
      rcases List.mem_append.mp mem with before | new
      · exact framed.batches batch before
      · rw [List.mem_singleton.mp new]; exact whole
    · rw [← inOrder]
      simp [Sender.pending,Sender.unsent,batchFrames,dataFramesShort (s := []) pos]

theorem stepFramed (pos : 0 < size) {s t : Sender β} {a} (framed : Framed size zero s)
    (packet : ∀ buf, a = .addToQueue buf → buf.length = size)
    (h : step size zero s a = some t) : Framed size zero t := by
  cases a with
  | addToQueue buf =>
    obtain rfl := stepAdd h
    refine ⟨?_,framed.pending,framed.connected,framed.alive,?_,framed.batches,?_⟩
    · rw [appendCells,List.length_append,packet buf rfl]
      exact Nat.dvd_add framed.queue (Nat.dvd_refl size)
    · intro old mem
      rcases List.mem_append.mp mem with before | new
      · exact framed.packets old before
      · rw [List.mem_singleton.mp new]; exact packet buf rfl
    · rw [appendCells,dataFramesAppend pos framed.queue,List.filter_append,← List.append_assoc,
        ← framed.inOrder,← dataFramesOne pos (packet buf rfl)]
      rfl
  | connect fd =>
    obtain ⟨here,⟨busy,-⟩ | ⟨-,⟨-,rfl⟩ | ⟨n,-,rfl⟩⟩⟩ := stepConnect h
    · simp [framed.connected.mpr here] at busy
    · exact framed
    · refine ⟨framed.queue,?_,by simp,by simp,framed.packets,framed.batches,?_⟩
      · simpa [Sender.pending,Sender.unsent,here] using framed.pending
      · simpa [Sender.pending,Sender.unsent,here] using framed.inOrder
  | take =>
    obtain ⟨here,rfl⟩ := stepTake h
    exact takeFramed pos here framed
  | send sendedlen =>
    obtain ⟨here,rfl⟩ := stepSend h
    exact sendFramed pos here.1 sendedlen framed

theorem afterSendFrames (pos : 0 < size) {s : Sender β} {sendedlen : Int}
    (careful : sendedlen < s.sendbuf.cells.length → sendedlen < size) :
    batchFrames size zero (afterSend s sendedlen).sent =
      batchFrames size zero s.sent ++ dataFrames size zero (accepted s sendedlen) := by
  unfold afterSend
  split
  · rename_i short
    have less := careful short
    rw [dataFramesShort (s := accepted s sendedlen) (by rw [accepted,List.length_take]; omega),
      List.append_nil]
  · rename_i full
    rw [acceptedFull full,batchFrames,List.flatMap_append,List.flatMap_singleton]
    rfl

end RfidStation.SendQueue
