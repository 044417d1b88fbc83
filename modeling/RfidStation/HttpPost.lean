import RfidStation.Config
import RfidStation.Lib.Search

/-! The receive loop of http_post (http.c). `buf` keeps what earlier recv calls left behind
the bytes of the last one, and both searches read it as a C string. -/
namespace RfidStation.HttpPost
open Cstr Config Search

def bufSize : Nat := 4096

def okLine : Bytes := ascii "200 OK\r\n"

def blankLine : Bytes := ascii "\r\n\r\n"

theorem okLineNeedle : Needle okLine := ⟨by decide +kernel,by decide +kernel⟩

theorem blankLineNeedle : Needle blankLine := ⟨by decide +kernel,by decide +kernel⟩

abbrev Chunk := {bytes : Bytes // bytes ≠ [] ∧ bytes.length ≤ bufSize}

inductive Recv where
  | data (chunk : Chunk)
  | interrupted
  | failed
  | closed
  deriving DecidableEq, Repr

structure Event where
  now : UInt32
  result : Recv
  deriving DecidableEq, Repr

structure Reader where
  buf : Bytes
  isok : Bool
  inPayload : Bool
  recvbuf : Option Bytes
  totalbytes : Nat
  deriving DecidableEq, Repr

inductive Ending where
  | closed | failed | deadline
  deriving DecidableEq, Repr

/- `exited` is safe_malloc with a negative size; `overrun` a search that leaves `buf`. -/
inductive Outcome where
  | returned (totalbytes : Nat) (recvbuf : Option Bytes) (ending : Ending)
  | exited
  | overrun
  deriving DecidableEq, Repr

inductive Progress where
  | next (s : Reader)
  | stop (outcome : Outcome)
  deriving DecidableEq, Repr

def start : Reader := ⟨List.replicate bufSize 0,false,false,none,0⟩

def overlay (chunk buf : Bytes) : Bytes := chunk ++ buf.drop chunk.length

def readPayload (s : Reader) (recvbytes : Nat) : Progress :=
  match strstr s.buf blankLine with
  | .absent => .next s
  | .overrun => .stop .overrun
  | .here pos =>
    let newbytes : Int := recvbytes - (pos + 4)
    if newbytes < 0 then .stop .exited
    else .next {s with
      recvbuf := some ((s.buf.drop (pos + 4)).take newbytes.toNat)
      totalbytes := newbytes.toNat
      inPayload := true}

def onData (s : Reader) (chunk : Bytes) : Progress :=
  let s := {s with buf := overlay chunk s.buf}
  if s.inPayload then
    .next {s with
      recvbuf := some (s.recvbuf.getD [] ++ chunk)
      totalbytes := s.totalbytes + chunk.length}
  else if s.isok then readPayload s chunk.length
  else match strstr s.buf okLine with
    | .absent => .next s
    | .overrun => .stop .overrun
    | .here _ => readPayload {s with isok := true} chunk.length

-- The difference is unsigned; tv_sec is wider.
def late (conf : Conf) (startTime now : UInt32) : Bool :=
  decide (((now - startTime).toNat : Int) > getInt conf "http.timeout")

/- `none` stands for a loop that waits for more than the events given. -/
def receive (conf : Conf) (startTime : UInt32) : Reader → List Event → Option Outcome
  | _, [] => none
  | s, ⟨now,result⟩ :: rest =>
    if late conf startTime now then some (.returned s.totalbytes s.recvbuf .deadline)
    else match result with
      | .interrupted => receive conf startTime s rest
      | .failed => some (.returned s.totalbytes s.recvbuf .failed)
      | .closed => some (.returned s.totalbytes s.recvbuf .closed)
      | .data chunk => match onData s chunk.val with
        | .next t => receive conf startTime t rest
        | .stop outcome => some outcome

def feed : Reader → List Bytes → Progress
  | s, [] => .next s
  | s, chunk :: rest => match onData s chunk with
    | .next t => feed t rest
    | .stop outcome => .stop outcome

def chunks : List Event → List Bytes
  | [] => []
  | ⟨_,.data chunk⟩ :: rest => chunk.val :: chunks rest
  | _ :: rest => chunks rest

theorem chunksSized (events : List Event) : ∀ chunk ∈ chunks events, chunk.length ≤ bufSize := by
  induction events with
  | nil => simp [chunks]
  | cons e rest ih =>
    obtain ⟨now,result⟩ := e
    cases result with
    | data chunk => exact List.forall_mem_cons.mpr ⟨chunk.property.2,ih⟩
    | interrupted => exact ih
    | failed => exact ih
    | closed => exact ih

structure InTime (conf : Conf) (startTime : UInt32) (events : List Event) : Prop where
  early : ∀ e ∈ events, late conf startTime e.now = false
  alive : ∀ e ∈ events, e.result ≠ .failed ∧ e.result ≠ .closed

theorem receiveFeed {conf : Conf} {startTime : UInt32} (s : Reader) {events : List Event}
    (inTime : InTime conf startTime events) (last : Event) :
    receive conf startTime s (events ++ [last]) = match feed s (chunks events) with
      | .next t => receive conf startTime t [last]
      | .stop outcome => some outcome := by
  induction events generalizing s with
  | nil => rfl
  | cons e rest ih =>
    obtain ⟨time,result⟩ := e
    have tail : InTime conf startTime rest :=
      ⟨fun e mem => inTime.early e (List.mem_cons_of_mem _ mem),
        fun e mem => inTime.alive e (List.mem_cons_of_mem _ mem)⟩
    have head := inTime.early _ List.mem_cons_self
    have alive := inTime.alive _ List.mem_cons_self
    simp only at head alive
    simp only [List.cons_append,receive,head,Bool.false_eq_true,if_false]
    cases result with
    | failed => exact absurd rfl alive.1
    | closed => exact absurd rfl alive.2
    | interrupted => exact ih s tail
    | data chunk =>
      simp only [chunks,feed]
      cases onData s chunk.val with
      | next t => exact ih t tail
      | stop outcome => rfl

def found (buf needle : Bytes) : Bool :=
  match strstr buf needle with
  | .here _ => true
  | _ => false

theorem onDataIdle {s : Reader} (idle : s.inPayload = false) (chunk : Bytes) :
    onData s chunk =
      if (s.isok || found (overlay chunk s.buf) okLine) = true then
        readPayload {s with buf := overlay chunk s.buf, isok := true} chunk.length
      else if strstr (overlay chunk s.buf) okLine = .overrun then .stop .overrun
      else .next {s with buf := overlay chunk s.buf} := by
  obtain ⟨buf,isok,inPayload,recvbuf,totalbytes⟩ := s
  simp only at idle
  subst inPayload
  simp only [onData,found,Bool.false_eq_true,if_false]
  cases isok with
  | true => simp
  | false =>
    cases search : strstr (overlay chunk buf) okLine <;> simp

def newbytes (s : Reader) (chunk : Bytes) : Option Int :=
  if s.inPayload then none
  else if s.isok || found (overlay chunk s.buf) okLine then
    match strstr (overlay chunk s.buf) blankLine with
    | .here pos => some (chunk.length - (pos + 4))
    | _ => none
  else none

def NewbytesBounded : Reader → List Bytes → Prop
  | _, [] => True
  | s, chunk :: rest =>
    (∀ n ∈ newbytes s chunk, 0 ≤ n ∧ n ≤ chunk.length) ∧
    ∀ t, onData s chunk = .next t → NewbytesBounded t rest

theorem onDataNewbytes {s : Reader} {chunk : Bytes} (survives : onData s chunk ≠ .stop .exited) :
    ∀ n ∈ newbytes s chunk, 0 ≤ n ∧ n ≤ chunk.length := by
  intro n mem
  cases idle : s.inPayload with
  | true => simp [newbytes,idle] at mem
  | false =>
    rw [onDataIdle idle] at survives
    rw [newbytes,idle,if_neg Bool.false_ne_true] at mem
    split at mem
    · rename_i seen
      rw [if_pos seen,readPayload] at survives
      split at mem
      · rename_i pos here
        simp only [here] at survives
        rw [Option.mem_some] at mem
        subst mem
        have small : ¬ (chunk.length : Int) - (pos + 4) < 0 := fun below => survives (if_pos below)
        omega
      · contradiction
    · contradiction

theorem feedNewbytes {s : Reader} {cs : List Bytes} (survives : feed s cs ≠ .stop .exited) :
    NewbytesBounded s cs := by
  induction cs generalizing s with
  | nil => trivial
  | cons chunk rest ih =>
    rw [feed] at survives
    refine ⟨onDataNewbytes (fun stop => survives (by rw [stop])),fun t moved => ih ?_⟩
    rwa [moved] at survives

theorem readPayloadStop {s : Reader} {n : Nat} {outcome} (h : readPayload s n = .stop outcome) :
    outcome = .exited ∨ outcome = .overrun := by
  rw [readPayload] at h
  split at h
  · contradiction
  · cases h; exact .inr rfl
  · dsimp only at h
    split at h
    · cases h; exact .inl rfl
    · contradiction

theorem onDataStop {s : Reader} {chunk : Bytes} {outcome} (h : onData s chunk = .stop outcome) :
    outcome = .exited ∨ outcome = .overrun := by
  cases idle : s.inPayload with
  | true => simp [onData,idle] at h
  | false =>
    rw [onDataIdle idle] at h
    split at h
    · exact readPayloadStop h
    · split at h
      · cases h; exact .inr rfl
      · contradiction

theorem feedStop {s : Reader} {cs : List Bytes} {outcome} (h : feed s cs = .stop outcome) :
    outcome = .exited ∨ outcome = .overrun := by
  induction cs generalizing s with
  | nil => contradiction
  | cons chunk rest ih =>
    rw [feed] at h
    split at h
    · exact ih h
    · rename_i stopped
      cases h
      exact onDataStop stopped

structure Storing (s : Reader) (payload : Bytes) : Prop where
  inPayload : s.inPayload = true
  recvbuf : s.recvbuf = some payload
  totalbytes : s.totalbytes = payload.length

theorem feedPayload {s : Reader} {payload : Bytes} (storing : Storing s payload)
    (after : List Bytes) : ∃ t, feed s after = .next t ∧ Storing t (payload ++ after.flatten) := by
  induction after generalizing s payload with
  | nil => exact ⟨s,rfl,by simpa using storing⟩
  | cons chunk rest ih =>
    simp only [feed,onData,storing.inPayload,if_true,storing.recvbuf,Option.getD_some]
    have more : Storing {s with
        buf := overlay chunk s.buf
        recvbuf := some (payload ++ chunk)
        totalbytes := s.totalbytes + chunk.length} (payload ++ chunk) :=
      ⟨storing.inPayload,rfl,by simp [storing.totalbytes]⟩
    obtain ⟨t,moved,stored⟩ := ih more
    rw [List.append_assoc] at stored
    exact ⟨t,by simpa [storing.inPayload] using moved,stored⟩

end RfidStation.HttpPost
