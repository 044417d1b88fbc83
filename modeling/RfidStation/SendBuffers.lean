import Mathlib.Data.List.Nodup
import RfidStation.SendQueue

/-! The heap buffers of the receiver's sender (receive/sender.c, do_send). Each batch lies in
a buffer of its own, allocated under lock_sender and freed after a send that took all of it.
Buffers are numbered by allocation; `allocated` lists what each was filled with. -/
namespace RfidStation.SendBuffers
open Buffers SendQueue

structure State (β : Type) where
  sender : Sender β
  allocated : List (Batch β)
  sendbuf : Option Nat
  freed : List (Option Nat)
  deriving DecidableEq, Repr

variable {β : Type}

def initial : State β := ⟨SendQueue.initial,[],none,[]⟩

-- do_send allocates only when the last send was good; a failed safe_malloc ends the program.
def malloc (s : State β) (t : Sender β) : State β :=
  if s.sender.lastok ∧ t.pc = .send then
    ⟨t,s.allocated ++ [t.sendbuf],some s.allocated.length,s.freed⟩ else {s with sender := t}

def free (s : State β) (t : Sender β) (sendedlen : Int) : State β :=
  if sendedlen < s.sender.sendbuf.cells.length then {s with sender := t}
  else {s with sender := t, freed := s.freed ++ [s.sendbuf]}

def record (s : State β) (t : Sender β) : Act β → State β
  | .take => malloc s t
  | .send sendedlen => free s t sendedlen
  | _ => {s with sender := t}

def step (size : Int) (zero : β) (s : State β) (act : Act β) : Option (State β) :=
  (SendQueue.step size zero s.sender act).map (fun t => record s t act)

theorem stepLifts {size : Int} {zero : β} {s t : State β} {act}
    (h : step size zero s act = some t) :
    ∃ u, SendQueue.step size zero s.sender act = some u ∧ t = record s u act := by
  obtain ⟨u,moved,rfl⟩ := Option.map_eq_some_iff.mp h
  exact ⟨u,moved,rfl⟩

@[simp] theorem mallocSender (s : State β) (t : Sender β) : (malloc s t).sender = t := by
  unfold malloc
  split <;> rfl

@[simp] theorem freeSender (s : State β) (t : Sender β) (sendedlen : Int) :
    (free s t sendedlen).sender = t := by
  unfold free
  split <;> rfl

theorem stepSender {size : Int} {zero : β} {s t : State β} {act}
    (h : step size zero s act = some t) :
    SendQueue.step size zero s.sender act = some t.sender := by
  obtain ⟨u,moved,rfl⟩ := stepLifts h
  cases act <;> simpa [record] using moved

/- try_connect is entered without a socket, do_send with one. -/
structure Wired (s : Sender β) : Prop where
  closed : s.pc = .connect → s.sockfd = none
  opened : s.pc = .take ∨ s.pc = .send → s.sockfd.isSome

theorem initialWired : Wired (SendQueue.initial (β := β)) := by
  constructor <;> simp [SendQueue.initial]

theorem takeCases (size : Int) (zero : β) (s : Sender β) :
    (takeBatch size zero s).pc = .send ∨ takeBatch size zero s = {s with pc := .abort} := by
  unfold takeBatch
  split
  · split
    · split
      · exact .inr rfl
      · exact .inl rfl
    · exact .inl rfl
  · exact .inl rfl

theorem stepWired {size : Int} {zero : β} {s t : Sender β} {act} (wired : Wired s)
    (h : SendQueue.step size zero s act = some t) : Wired t := by
  cases act with
  | addToQueue buf =>
    obtain rfl := stepAdd h
    exact ⟨wired.closed,wired.opened⟩
  | connect fd =>
    obtain ⟨here,⟨busy,-⟩ | ⟨-,⟨-,rfl⟩ | ⟨n,-,rfl⟩⟩⟩ := stepConnect h
    · simp [wired.closed here] at busy
    · exact wired
    · exact ⟨by simp,by simp⟩
  | take =>
    obtain ⟨here,rfl⟩ := stepTake h
    have opened := wired.opened (.inl here)
    constructor
    · intro connecting
      rcases takeCases size zero s with sending | aborted
      · simp [connecting] at sending
      · simp [aborted] at connecting
    · intro _
      rwa [takeSockfd]
  | send sendedlen =>
    obtain ⟨⟨here,-⟩,rfl⟩ := stepSend h
    have opened := wired.opened (.inr here)
    unfold afterSend
    split
    · exact ⟨by simp,by simp⟩
    · exact ⟨by simp,fun _ => opened⟩

/- The buffers that were sent are those that were freed; at most one more is in use. -/
structure Owned (s : State β) : Prop where
  contents : s.allocated =
    s.sender.sent ++ (if s.sender.unsent then [s.sender.sendbuf] else [])
  freed : s.freed = (List.range s.sender.sent.length).map some
  held : s.sender.unsent → s.sendbuf = some s.sender.sent.length

theorem initialOwned : Owned (initial (β := β)) := by
  constructor <;> simp [initial,SendQueue.initial,Sender.unsent]

theorem ownedFrame {s : State β} {u : Sender β} (owned : Owned s) (sent : u.sent = s.sender.sent)
    (sendbuf : u.sendbuf = s.sender.sendbuf) (unsent : u.unsent ↔ s.sender.unsent) :
    Owned {s with sender := u} := by
  obtain ⟨contents,freed,held⟩ := owned
  refine ⟨?_,by simpa only [sent] using freed,by simpa only [sent,unsent] using held⟩
  simpa only [sent,sendbuf,unsent] using contents

theorem mallocOwned {size : Int} {zero : β} {s : State β} (here : s.sender.pc = .take)
    (owned : Owned s) : Owned (malloc s (takeBatch size zero s.sender)) := by
  unfold malloc
  split
  · rename_i fresh
    obtain ⟨contents,freed,held⟩ := owned
    obtain ⟨ok,sending⟩ := fresh
    have idle : ¬ s.sender.unsent := by simp [Sender.unsent,here,ok]
    rw [if_neg idle,List.append_nil] at contents
    refine ⟨?_,by simpa using freed,fun _ => by simp [contents]⟩
    simp [Sender.unsent,sending,contents]
  · rename_i same
    by_cases ok : s.sender.lastok
    · rw [(takeCases size zero s.sender).resolve_left (fun sending => same ⟨ok,sending⟩)]
      exact ownedFrame owned rfl rfl (by simp [Sender.unsent,here])
    · rw [takeBatch,if_neg ok]
      exact ownedFrame owned rfl rfl (by simp [Sender.unsent,ok])

theorem freeOwned {s : State β} (here : s.sender.pc = .send) (sendedlen : Int)
    (owned : Owned s) : Owned (free s (afterSend s.sender sendedlen) sendedlen) := by
  have waiting : s.sender.unsent := .inl here
  unfold free afterSend
  split
  · exact ownedFrame owned rfl rfl (by simp [Sender.unsent,here])
  · obtain ⟨contents,freed,held⟩ := owned
    rw [if_pos waiting] at contents
    refine ⟨?_,?_,by simp [Sender.unsent]⟩
    · simpa [Sender.unsent] using contents
    · simp [freed,held waiting,List.range_succ]

theorem stepOwned {size : Int} {zero : β} {s t : State β} {act} (owned : Owned s)
    (h : step size zero s act = some t) : Owned t := by
  obtain ⟨u,moved,rfl⟩ := stepLifts h
  cases act with
  | addToQueue buf =>
    obtain rfl := stepAdd moved
    exact ownedFrame owned rfl rfl Iff.rfl
  | connect fd =>
    obtain ⟨here,⟨-,rfl⟩ | ⟨-,⟨-,rfl⟩ | ⟨n,-,rfl⟩⟩⟩ := stepConnect moved
    · exact ownedFrame owned rfl rfl (by simp [Sender.unsent,here])
    · exact owned
    · exact ownedFrame owned rfl rfl (by simp [Sender.unsent,here])
  | take =>
    obtain ⟨here,rfl⟩ := stepTake moved
    exact mallocOwned here owned
  | send sendedlen =>
    obtain ⟨⟨here,-⟩,rfl⟩ := stepSend moved
    exact freeOwned here sendedlen owned

structure Invariant (size : Int) (zero : β) (s : State β) : Prop where
  conserved : Conserved size zero s.sender
  wired : Wired s.sender
  owned : Owned s

theorem stepInvariant {size : Int} {zero : β} {s t : State β} {act}
    (held : Invariant size zero s) (h : step size zero s act = some t) :
    Invariant size zero t :=
  ⟨stepConserved held.conserved (stepSender h),stepWired held.wired (stepSender h),
    stepOwned held.owned h⟩

theorem runInvariant {size : Int} {zero : β} {acts : List (Act β)} {t : State β}
    (run : Runs.exec (step size zero) initial acts = some t) : Invariant size zero t :=
  Runs.invariant (fun _ _ _ => stepInvariant)
    ⟨initialConserved size zero,initialWired,initialOwned⟩ run

/-- Whatever connect and send return, the buffers sent in full, the one taken and not yet
sent, and the queue hold what was added, in order. Buffer `p` is freed when its send
completes and at no other time, try_connect finds no socket open, and do_send sends a live
buffer on an open socket. -/
theorem sendQueueSound (size : Int) (zero : β) (acts : List (Act β)) (t : State β)
    (run : Runs.exec (step size zero) initial acts = some t) :
    t.sender.sent.flatMap Batch.data ++ t.sender.pendingData ++ t.sender.queue.cells =
      t.sender.added.flatten ∧
    (t.sender.pc = .connect → t.sender.sockfd = none) ∧
    (t.sender.pc = .send → t.sender.sockfd.isSome) ∧
    t.freed.Nodup ∧
    (∀ p, some p ∈ t.freed ↔ p < t.sender.sent.length) ∧ none ∉ t.freed ∧
    (∀ (p : Nat) (batch : Batch β), t.sender.sent[p]? = some batch → t.allocated[p]? = some batch) ∧
    (t.sender.pc = .send → t.sendbuf ∉ t.freed ∧
      ∃ p, t.sendbuf = some p ∧ t.allocated[p]? = some t.sender.sendbuf) := by
  obtain ⟨conserved,wired,owned⟩ := runInvariant run
  refine ⟨conserved.inOrder,wired.closed,fun sending => wired.opened (.inr sending),?_,?_,?_,?_,?_⟩
  · rw [owned.freed]
    exact List.Nodup.map (fun _ _ => Option.some.inj) List.nodup_range
  · intro p
    simp [owned.freed]
  · simp [owned.freed]
  · intro p batch there
    rw [owned.contents,List.getElem?_append_left (List.getElem?_eq_some_iff.mp there).1]
    exact there
  · intro sending
    have waiting : t.sender.unsent := .inl sending
    rw [owned.held waiting,owned.freed,owned.contents,if_pos waiting]
    exact ⟨by simp,_,rfl,by simp⟩

def resend : List (Act Nat) :=
  [.addToQueue [1,7,7],.connect (some 5),.take,.send 1,.addToQueue [1,8,8],.connect none,
    .connect (some 6),.take,.send 3,.take,.send 3,.take]

theorem sendQueueSoundResend : ∃ t, Runs.exec (step 3 0) initial resend = some t ∧
    t.sender.sent.flatMap Batch.data = [1,7,7,1,8,8] ∧ t.sender.pc = .send ∧
    t.freed.Nodup ∧ t.sendbuf ∉ t.freed := by
  have seen : (Runs.exec (step 3 0) initial resend).map
      (fun t => (t.sender.sent.flatMap Batch.data,t.sender.pc)) =
      some ([1,7,7,1,8,8],.send) := by decide
  obtain ⟨t,run,same⟩ := Option.map_eq_some_iff.mp seen
  obtain ⟨sent,sending⟩ := Prod.mk.inj same
  obtain ⟨-,-,-,once,-,-,-,live⟩ := sendQueueSound 3 0 resend t run
  exact ⟨t,run,sent,sending,once,(live sending).1⟩

theorem takenBeforeFailure : ¬ ∀ (acts : List (Act Nat)) (t : Sender Nat),
    Runs.exec (SendQueue.step 3 0) SendQueue.initial acts = some t →
    t.sent.flatMap Batch.data ++ (if t.lastok then [] else t.sendbuf.data) ++ t.queue.cells =
      t.added.flatten := by
  intro claim
  have lost := claim [.addToQueue [1,7,7],.connect (some 5),.take] _ rfl
  exact absurd lost (by decide)

end RfidStation.SendBuffers
