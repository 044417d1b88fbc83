import RfidStation.Segments
import RfidStation.Conservation

/-! What an answer of the cloud does to a pending batch: http_post (http.c) reads it,
cloud_send (common.c) copies it and commit_notify_queue (sender.c) compares it with
cloud.ok_response over the bytes received. -/
namespace RfidStation.CloudSend
open Cstr Config HttpPost Segments NotifyQueue Conservation

/- `unsent` is a request that fails before its first recv. -/
inductive Request where
  | unsent
  | answered (events : List Event)
  deriving DecidableEq, Repr

def copyReply (length : Nat) (recvbuf : Option Bytes) : Reply :=
  ⟨length,recvbuf.map (fun body => body.take length ++ [0])⟩

/- `none` where http_post does not return. -/
def cloudSend (conf : Conf) (startTime : UInt32) : Request → Option Reply
  | .unsent => some (copyReply 0 none)
  | .answered events => match receive conf startTime start events with
    | some (.returned totalbytes recvbuf _) => some (copyReply totalbytes recvbuf)
    | _ => none

structure Carries (reply : Reply) (got : Bytes) : Prop where
  received : reply.received = got.length
  recvBuf : reply.recvBuf = some (got ++ [0]) ∨ got = [] ∧ reply.recvBuf = none

theorem nothingCarries {s : Reader} (kept : s.recvbuf = none ∧ s.totalbytes = 0) :
    Carries (copyReply s.totalbytes s.recvbuf) [] := by
  rw [kept.1,kept.2]
  exact ⟨rfl,.inr ⟨rfl,rfl⟩⟩

theorem storingCarries {s : Reader} {payload : Bytes} (storing : Storing s payload) :
    Carries (copyReply s.totalbytes s.recvbuf) payload := by
  rw [storing.recvbuf,storing.totalbytes]
  exact ⟨rfl,.inl (by simp [copyReply])⟩

def PassesFor (ok got : Bytes) : Prop := got ≠ [] ∧ (got <+: ok ∨ ok ++ [0] <+: got)

theorem acknowledgedIff {l : Limits} {reply : Reply} {got : Bytes} (carries : Carries reply got) :
    acknowledged l reply = true ↔ PassesFor (cstr l.okResponse) got := by
  obtain ⟨received,stored | ⟨rfl,stored⟩⟩ := carries
  · rw [acknowledged,stored,received,Bool.and_eq_true,decide_eq_true_eq,Int.toNat_natCast,
      strncmpLength,PassesFor,← List.length_pos_iff]
    exact and_congr_left fun _ => Int.natCast_pos
  · simp [acknowledged,stored,PassesFor]

def SentAgain {ρ : Type} (l : Limits) (enc : ρ → Bytes) (body : Bytes) (s : Pipe ρ UInt8) : Prop :=
  ∀ later t, Runs.exec (step l enc) s later = some t → Unacknowledged l later →
    Resends enc body s later t ∧
    ∀ reply u, step l enc t (.upload reply) = some u → u.uploads = t.uploads ++ [body]

theorem holdingSentAgain {ρ : Type} {l : Limits} {enc : ρ → Bytes} {body : Bytes}
    {s : Pipe ρ UInt8} (holding : Holding body s) : SentAgain l enc body s := by
  intro later t run noAck
  obtain ⟨held,resends⟩ := runResends later holding noAck run
  refine ⟨resends,fun reply u h => ?_⟩
  obtain ⟨other,-,same,rfl⟩ := stepUpload h
  cases Option.some.inj (held.1.symm.trans same)
  split <;> rfl

end RfidStation.CloudSend
