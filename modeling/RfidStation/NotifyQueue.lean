import RfidStation.Config
import RfidStation.Lib.Buffer
import RfidStation.Lib.Runs

/-! The notification pipeline of the merger: notify (timeout.c) appends records under
lock_notify_queue, commit_notify_queue (sender.c) tests the length without the lock, copies
the tail and shrinks the queue under it, and uploads until the cloud acknowledges. `enc` is
what notify writes for its arguments. `calls`, `uploads` and `acked` are history: the calls
of notify, the bodies given to cloud_send, and those freed after an acknowledgement. -/
namespace RfidStation.NotifyQueue
open Cstr Config Buffers

structure Limits where
  maxDataLen : Int
  okResponse : Bytes
  deriving DecidableEq, Repr

def limits (conf : Conf) : Limits :=
  ⟨getInt conf "http.max_data_len",getConfig conf (ascii "cloud.ok_response")⟩

structure Reply where
  received : Int
  recvBuf : Option Bytes
  deriving DecidableEq, Repr

def acknowledged (l : Limits) (reply : Reply) : Bool :=
  match reply.recvBuf with
  | some recvBuf => reply.received > 0 && strncmpEqual reply.received.toNat recvBuf l.okResponse
  | none => false

/- Program points of commit_notify_queue: not running; before each of the two tests; in the
branch of a queue too long; before the lock; before cloud_send. `overrun` stands for a copy
from outside the queue. -/
inductive Pc where
  | idle | testEmpty | testLong | report | lock | send | overrun
  deriving DecidableEq, Repr

structure Pipe (ρ β : Type) where
  queue : Buffer β
  sendBuf : Option (List β)
  sendLen : Int
  pc : Pc
  calls : List ρ
  uploads : List (List β)
  acked : List (List β)
  deriving DecidableEq, Repr

variable {ρ β : Type}

def initial : Pipe ρ β := ⟨empty,none,0,.idle,[],[],[]⟩

inductive Act (ρ : Type) where
  | notify (call : ρ)
  | enter
  | testEmpty
  | testLong
  | setLimit
  | dequeue
  | upload (reply : Reply)
  deriving DecidableEq, Repr

def Pipe.queueLen (s : Pipe ρ β) : Nat := s.queue.cells.length

-- Under the lock, a send_len of 0 stands for the whole queue.
def Pipe.chunk (s : Pipe ρ β) : Int := if s.sendLen = 0 then s.queueLen else s.sendLen

def step (l : Limits) (enc : ρ → List β) (s : Pipe ρ β) : Act ρ → Option (Pipe ρ β)
  | .notify call => some {s with queue := s.queue.append (enc call), calls := s.calls ++ [call]}
  | .enter => if s.pc = .idle then
      some {s with pc := if s.sendBuf.isSome then .send else .testEmpty} else none
  | .testEmpty => if s.pc = .testEmpty then
      some {s with pc := if s.queueLen = 0 then .idle else .testLong} else none
  | .testLong => if s.pc = .testLong then
      some (if (s.queueLen : Int) > l.maxDataLen then {s with pc := .report}
        else {s with sendLen := 0, pc := .lock}) else none
  | .setLimit => if s.pc = .report then
      some {s with sendLen := l.maxDataLen, pc := .lock} else none
  | .dequeue => if s.pc = .lock then
      some (if 0 ≤ s.chunk ∧ s.chunk ≤ s.queueLen then
          {s with
            queue := s.queue.shrink s.chunk.toNat
            sendBuf := some (s.queue.tail s.chunk.toNat)
            sendLen := s.chunk
            pc := .send}
        else {s with pc := .overrun}) else none
  | .upload reply => match s.pc, s.sendBuf with
      | .send, some body => some (if acknowledged l reply then
          {s with sendBuf := none, pc := .idle, uploads := s.uploads ++ [body],
                  acked := s.acked ++ [body]}
        else {s with pc := .idle, uploads := s.uploads ++ [body]})
      | _, _ => none

section Steps
variable {l : Limits} {enc : ρ → List β} {s t : Pipe ρ β}

theorem stepNotify {call : ρ} (h : step l enc s (.notify call) = some t) :
    t = {s with queue := s.queue.append (enc call), calls := s.calls ++ [call]} :=
  (Option.some.inj h).symm

theorem stepEnter (h : step l enc s .enter = some t) :
    s.pc = .idle ∧ t = {s with pc := if s.sendBuf.isSome then .send else .testEmpty} :=
  Runs.guarded h

theorem stepTestEmpty (h : step l enc s .testEmpty = some t) :
    s.pc = .testEmpty ∧ t = {s with pc := if s.queueLen = 0 then .idle else .testLong} :=
  Runs.guarded h

theorem stepTestLong (h : step l enc s .testLong = some t) : s.pc = .testLong ∧
    t = if (s.queueLen : Int) > l.maxDataLen then {s with pc := .report}
      else {s with sendLen := 0, pc := .lock} :=
  Runs.guarded h

theorem stepSetLimit (h : step l enc s .setLimit = some t) :
    s.pc = .report ∧ t = {s with sendLen := l.maxDataLen, pc := .lock} :=
  Runs.guarded h

theorem stepUpload {reply : Reply} (h : step l enc s (.upload reply) = some t) :
    ∃ body, s.pc = .send ∧ s.sendBuf = some body ∧ t = if acknowledged l reply then
        {s with sendBuf := none, pc := .idle, uploads := s.uploads ++ [body],
                acked := s.acked ++ [body]}
      else {s with pc := .idle, uploads := s.uploads ++ [body]} := by
  simp only [step] at h
  split at h <;> try contradiction
  exact ⟨_,‹_›,‹_›,(Option.some.inj h).symm⟩

end Steps

structure Sound (l : Limits) (s : Pipe ρ β) : Prop where
  inside : s.pc ≠ .overrun
  pending : ∀ body, s.sendBuf = some body → s.sendLen = body.length
  sending : s.pc = .send → s.sendBuf.isSome
  unsent : s.pc ≠ .idle → s.pc ≠ .send → s.sendBuf = none
  nonempty : s.pc = .testLong ∨ s.pc = .report ∨ s.pc = .lock → 0 < s.queueLen
  long : s.pc = .report → l.maxDataLen < s.queueLen
  bounded : s.pc = .lock → s.sendLen = 0 ∨ s.sendLen = l.maxDataLen ∧ s.sendLen < s.queueLen

theorem chunkBounds {l : Limits} (limit : 0 ≤ l.maxDataLen) {s : Pipe ρ β} (sound : Sound l s)
    (here : s.pc = .lock) : 0 < s.chunk ∧ s.chunk ≤ s.queueLen := by
  have some_queue := sound.nonempty (.inr (.inr here))
  unfold Pipe.chunk
  split
  · omega
  · rcases sound.bounded here with zero | ⟨same,below⟩
    · contradiction
    · omega

theorem stepDequeue {l : Limits} (limit : 0 ≤ l.maxDataLen) {enc : ρ → List β} {s t : Pipe ρ β}
    (sound : Sound l s) (h : step l enc s .dequeue = some t) :
    s.pc = .lock ∧ t = {s with
      queue := s.queue.shrink s.chunk.toNat
      sendBuf := some (s.queue.tail s.chunk.toNat)
      sendLen := s.chunk
      pc := .send} := by
  obtain ⟨here,moved⟩ := Runs.guarded h
  have bounds := chunkBounds limit sound here
  rw [if_pos ⟨by omega,bounds.2⟩] at moved
  exact ⟨here,moved⟩

theorem initialSound (l : Limits) : Sound l (initial : Pipe ρ β) := by
  constructor <;> simp [initial]

theorem stepSound {l : Limits} (limit : 0 ≤ l.maxDataLen) {enc : ρ → List β} {s a t}
    (sound : Sound l s) (h : step l enc s a = some t) : Sound l t := by
  cases a with
  | notify call =>
    obtain rfl := stepNotify h
    -- the queue only grows between the tests and the lock
    have grown : s.queueLen ≤ s.queueLen + (enc call).length := Nat.le_add_right _ _
    exact ⟨sound.inside,sound.pending,sound.sending,sound.unsent,
      fun here => by
        have := sound.nonempty here
        simp only [Pipe.queueLen,appendCells,List.length_append] at *; omega,
      fun here => by
        have := sound.long here
        simp only [Pipe.queueLen,appendCells,List.length_append] at *; omega,
      fun here => by
        have := sound.bounded here
        simp only [Pipe.queueLen,appendCells,List.length_append] at *; omega⟩
  | enter =>
    obtain ⟨here,rfl⟩ := stepEnter h
    cases pending : s.sendBuf with
    | none => constructor <;> simp
    | some body => constructor <;> simp [sound.pending body pending]
  | testEmpty =>
    obtain ⟨here,rfl⟩ := stepTestEmpty h
    have unsent := sound.unsent (by simp [here]) (by simp [here])
    split
    · constructor <;> simp [unsent]
    · constructor <;> simp_all [Pipe.queueLen,List.length_pos_iff]
  | testLong =>
    obtain ⟨here,rfl⟩ := stepTestLong h
    have unsent := sound.unsent (by simp [here]) (by simp [here])
    have nonempty := sound.nonempty (.inl here)
    split
    · rename_i long
      exact ⟨by simp,by simp [unsent],by simp,fun _ _ => unsent,fun _ => nonempty,
        fun _ => long,by simp⟩
    · exact ⟨by simp,by simp [unsent],by simp,fun _ _ => unsent,fun _ => nonempty,
        by simp,fun _ => .inl rfl⟩
  | setLimit =>
    obtain ⟨here,rfl⟩ := stepSetLimit h
    have unsent := sound.unsent (by simp [here]) (by simp [here])
    exact ⟨by simp,by simp [unsent],by simp,fun _ _ => unsent,
      fun _ => sound.nonempty (.inr (.inl here)),by simp,fun _ => .inr ⟨rfl,sound.long here⟩⟩
  | dequeue =>
    obtain ⟨here,rfl⟩ := stepDequeue limit sound h
    have bounds := chunkBounds limit sound here
    refine ⟨by simp,?_,by simp,by simp,by simp,by simp,by simp⟩
    intro body same
    cases Option.some.inj same
    rw [tailLength (by unfold Pipe.queueLen at bounds; omega)]
    simp only; omega
  | upload reply =>
    obtain ⟨body,here,pending,rfl⟩ := stepUpload h
    split
    · constructor <;> simp
    · constructor <;> simp [pending,sound.pending body pending]

end RfidStation.NotifyQueue
