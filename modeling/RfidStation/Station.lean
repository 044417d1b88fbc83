import RfidStation.Delivery
import RfidStation.Framing
import RfidStation.Sessions
import RfidStation.TimerRace
import RfidStation.Lib.Parts
import Mathlib.Data.List.TakeDrop
import Mathlib.Data.Set.List

/-! The whole station: the senders of the receivers, and the three working threads of the
merger. msg_loop gives the packet that it has read to handle_packet before it reads again,
check_timers notifies what it decides, and commit_notify_queue uploads what was notified.
`size` is PACKET_SIZE on both sides. -/
namespace RfidStation.Station
open Cstr Config Hex Student Merger NotifyQueue
open Records (requestSize decodeBody)
open Delivery (inFlight handed)
open SendQueue (dataFrames)
open TimerRace (Reading Conserved verdicts sessionVerdicts faithfulVerdicts undecided)

structure State where
  delivery : Delivery.System UInt8
  buf : Option (Bool × Bytes)
  timers : TimerRace.State
  pipe : Pipe Notice UInt8

def initial : State := ⟨Delivery.initial,none,TimerRace.initial,NotifyQueue.initial⟩

variable {size : Nat}

-- What notify copies: ID_SIZE bytes of the student id, the action, and the separator.
def request (size : Nat) (call : Notice) : Bytes :=
  call.1.takeD (2 * size) 0 ++ [48 + UInt8.ofNat call.2.toNat,46]

def readInto (l m : MsgLoop.Loop UInt8) : Option (Bool × Bytes) :=
  match l.pc with
  | .read i => (m.taken i)[(l.taken i).length]?.map (fun pack => (i,pack))
  | _ => none

inductive Act (size : Nat) where
  | receivers (a : Delivery.Act UInt8 size)
  | msgLoop
  | handlePacket
  | timers (a : TimerRace.Act)
  | sender (a : NotifyQueue.Act Notice)
  deriving DecidableEq, Repr

def notify (l : Limits) (size : Nat) (pipe : Pipe Notice UInt8) (calls : List Notice) :
    Option (Pipe Notice UInt8) :=
  Runs.exec (NotifyQueue.step l (request size)) pipe (calls.map .notify)

def step (receive conf : Conf) (s : State) : Act size → Option State
  | .receivers a => if a = .msgLoop then none else
      (Delivery.step receive 0 s.delivery a).map (fun delivery => {s with delivery := delivery})
  | .msgLoop => if s.buf = none ∧ s.timers.server = .idle then
      (Delivery.step receive 0 s.delivery (.msgLoop : Delivery.Act UInt8 size)).map (fun delivery =>
        {s with delivery := delivery, buf := readInto s.delivery.loop delivery.loop}) else none
  | .handlePacket => match s.buf with
    | none => none
    | some (i,pack) =>
      if passesZeroFilter conf pack ∧
          (getInt conf "student.checksum_enable" ≠ 0 → checkPacket pack) then
        (TimerRace.step (studentTimeout conf) s.timers (.get (sprintBuf pack) i)).map
          (fun timers => {s with timers := timers, buf := none})
      else some {s with buf := none}
  | .timers (.get _ _) => none
  | .timers .decide => do
      let timers ← TimerRace.step (studentTimeout conf) s.timers .decide
      let pipe ← notify (limits conf) size s.pipe (timers.notices.drop s.timers.notices.length)
      some {s with timers := timers, pipe := pipe}
  | .timers a => (TimerRace.step (studentTimeout conf) s.timers a).map
      (fun timers => {s with timers := timers})
  | .sender (.notify _) => none
  | .sender a => (NotifyQueue.step (limits conf) (request size) s.pipe a).map
      (fun pipe => {s with pipe := pipe})

/-- The conditions of the three parts: no send or accept that loses or repeats a packet, no
deletion between reading a card's state and storing it, no upload cut inside a record. -/
def Permitted (conf : Conf) (size : Nat) (s : State) : Act size → Prop
  | .receivers a => Delivery.Careful size 0 s.delivery a
  | .msgLoop => Delivery.Careful size 0 s.delivery .msgLoop
  | .handlePacket => True
  | .timers a => TimerRace.Undisturbed s.timers a
  | .sender a => Framing.WholeCut (limits conf) (requestSize size) s.pipe a

instance (conf : Conf) (s : State) (a : Act size) : Decidable (Permitted conf size s a) :=
  match a with
  | .receivers a => inferInstanceAs (Decidable (Delivery.Careful size 0 s.delivery a))
  | .msgLoop => inferInstanceAs (Decidable (Delivery.Careful size 0 s.delivery .msgLoop))
  | .handlePacket => isTrue trivial
  | .timers a => inferInstanceAs (Decidable (TimerRace.Undisturbed s.timers a))
  | .sender a => inferInstanceAs (Decidable (Framing.WholeCut (limits conf) (requestSize size) s.pipe a))

section Steps
variable {receive conf : Conf} {s t : State}

theorem stepReceivers {a : Delivery.Act UInt8 size} (h : step receive conf s (.receivers a) = some t) :
    a ≠ .msgLoop ∧ ∃ m, Delivery.step receive 0 s.delivery a = some m ∧ t = {s with delivery := m} := by
  obtain ⟨other,moved⟩ := Option.ite_none_left_eq_some.mp h
  obtain ⟨m,next,rfl⟩ := Option.map_eq_some_iff.mp moved
  exact ⟨other,m,next,rfl⟩

theorem stepMsgLoop (h : step receive conf s (.msgLoop : Act size) = some t) :
    (s.buf = none ∧ s.timers.server = .idle) ∧ ∃ loop, MsgLoop.step size s.delivery.loop = some loop ∧
      t = {s with delivery := {s.delivery with loop := loop},
                  buf := readInto s.delivery.loop loop} := by
  obtain ⟨free,moved⟩ := Option.ite_none_right_eq_some.mp h
  obtain ⟨m,whole,rfl⟩ := Option.map_eq_some_iff.mp moved
  obtain ⟨loop,next,rfl⟩ := Option.map_eq_some_iff.mp whole
  exact ⟨free,loop,next,rfl⟩

theorem stepHandle (h : step receive conf s (.handlePacket : Act size) = some t) :
    ∃ i pack, s.buf = some (i,pack) ∧ (Sessions.Accepted conf pack ∧ (∃ timers,
        TimerRace.step (studentTimeout conf) s.timers (.get (sprintBuf pack) i) = some timers ∧
        t = {s with timers := timers, buf := none}) ∨
      ¬ Sessions.Accepted conf pack ∧ t = {s with buf := none}) := by
  simp only [step] at h
  split at h <;> try contradiction
  rename_i i pack here
  refine ⟨i,pack,here,?_⟩
  rw [Sessions.acceptedIff]
  split at h
  · rename_i accepted
    obtain ⟨timers,moved,rfl⟩ := Option.map_eq_some_iff.mp h
    exact .inl ⟨accepted,timers,moved,rfl⟩
  · rename_i rejected
    exact .inr ⟨rejected,(Option.some.inj h).symm⟩

theorem stepDecide (h : step receive conf s (.timers .decide : Act size) = some t) :
    ∃ curr n id state pipe, s.timers.checker = .unlinked curr n id state ∧
      notify (limits conf) size s.pipe
        ((verdict (ofInt state.value)).toList.map (fun a => (id,a))) = some pipe ∧
      t = {s with
        timers := {s.timers with
          evaluated := s.timers.evaluated ++ [(id,state)]
          notices := s.timers.notices ++
            (verdict (ofInt state.value)).toList.map (fun a => (id,a))
          checker := .loop curr n}
        pipe := pipe} := by
  obtain ⟨timers,moved,later⟩ := Option.bind_eq_some_iff.mp h
  obtain ⟨pipe,notified,same⟩ := Option.bind_eq_some_iff.mp later
  obtain ⟨curr,n,id,state,here,rfl⟩ := TimerRace.stepDecide moved
  rw [List.drop_left] at notified
  exact ⟨curr,n,id,state,pipe,here,notified,(Option.some.inj same).symm⟩

theorem stepTimers {a : TimerRace.Act} (other : a ≠ .decide)
    (h : step receive conf s (.timers a : Act size) = some t) :
    (∀ id action, a ≠ .get id action) ∧ ∃ timers,
      TimerRace.step (studentTimeout conf) s.timers a = some timers ∧ t = {s with timers := timers} := by
  cases a <;> simp only [step] at h <;> try contradiction
  all_goals
    obtain ⟨timers,moved,rfl⟩ := Option.map_eq_some_iff.mp h
    exact ⟨by simp,timers,moved,rfl⟩

theorem stepSender {a : NotifyQueue.Act Notice} (h : step receive conf s (.sender a : Act size) = some t) :
    (∀ call, a ≠ .notify call) ∧ ∃ pipe,
      NotifyQueue.step (limits conf) (request size) s.pipe a = some pipe ∧ t = {s with pipe := pipe} := by
  cases a <;> simp only [step] at h <;> try contradiction
  all_goals
    obtain ⟨pipe,moved,rfl⟩ := Option.map_eq_some_iff.mp h
    exact ⟨by simp,pipe,moved,rfl⟩

end Steps

section Parts
variable {receive conf : Conf} {s t : State} {a : Act size}
open Parts (Sees)

theorem deliverySees (permitted : Permitted conf size s a) (h : step receive conf s a = some t) :
    Sees (Delivery.step receive 0) (Delivery.Careful size 0) s.delivery t.delivery := by
  cases a with
  | receivers a =>
    obtain ⟨-,m,moved,rfl⟩ := stepReceivers h
    exact .moved a permitted moved
  | msgLoop =>
    obtain ⟨-,loop,moved,rfl⟩ := stepMsgLoop h
    exact .moved .msgLoop permitted (congrArg (Option.map _) moved)
  | handlePacket =>
    obtain ⟨i,pack,-,⟨-,timers,-,rfl⟩ | ⟨-,rfl⟩⟩ := stepHandle h <;> exact .still
  | timers a =>
    by_cases decides : a = .decide
    · subst a
      obtain ⟨curr,n,id,state,pipe,-,-,rfl⟩ := stepDecide h
      exact .still
    · obtain ⟨-,timers,-,rfl⟩ := stepTimers decides h
      exact .still
  | sender a =>
    obtain ⟨-,pipe,-,rfl⟩ := stepSender h
    exact .still

theorem timersSees (permitted : Permitted conf size s a) (h : step receive conf s a = some t) :
    Sees (TimerRace.step (studentTimeout conf)) TimerRace.Undisturbed s.timers t.timers := by
  cases a with
  | receivers a =>
    obtain ⟨-,m,-,rfl⟩ := stepReceivers h
    exact .still
  | msgLoop =>
    obtain ⟨-,loop,-,rfl⟩ := stepMsgLoop h
    exact .still
  | handlePacket =>
    obtain ⟨i,pack,-,⟨-,timers,moved,rfl⟩ | ⟨-,rfl⟩⟩ := stepHandle h
    · exact .moved (.get (sprintBuf pack) i) trivial moved
    · exact .still
  | timers a =>
    by_cases decides : a = .decide
    · subst a
      obtain ⟨curr,n,id,state,pipe,here,-,rfl⟩ := stepDecide h
      exact .moved .decide permitted (by rw [TimerRace.step,here])
    · obtain ⟨-,timers,moved,rfl⟩ := stepTimers decides h
      exact .moved a permitted moved
  | sender a =>
    obtain ⟨-,pipe,-,rfl⟩ := stepSender h
    exact .still

theorem notifySees {l : Limits} {pipe next : Pipe Notice UInt8} (found : Option Bool) (id : Key)
    (h : notify l size pipe (found.toList.map (fun action => (id,action))) = some next) :
    Sees (NotifyQueue.step l (request size)) (Framing.WholeCut l (requestSize size)) pipe next := by
  cases found with
  | none =>
    obtain rfl : pipe = next := Option.some.inj h
    exact .still
  | some action =>
    obtain ⟨m,moved,same⟩ := Runs.execCons h
    cases Option.some.inj same
    exact .moved (.notify (id,action)) trivial moved

theorem pipeSees (permitted : Permitted conf size s a) (h : step receive conf s a = some t) :
    Sees (NotifyQueue.step (limits conf) (request size))
      (Framing.WholeCut (limits conf) (requestSize size)) s.pipe t.pipe := by
  cases a with
  | receivers a =>
    obtain ⟨-,m,-,rfl⟩ := stepReceivers h
    exact .still
  | msgLoop =>
    obtain ⟨-,loop,-,rfl⟩ := stepMsgLoop h
    exact .still
  | handlePacket =>
    obtain ⟨i,pack,-,⟨-,timers,-,rfl⟩ | ⟨-,rfl⟩⟩ := stepHandle h <;> exact .still
  | timers a =>
    by_cases decides : a = .decide
    · subst a
      obtain ⟨curr,n,id,state,pipe,-,notified,rfl⟩ := stepDecide h
      exact notifySees _ id notified
    · obtain ⟨-,timers,-,rfl⟩ := stepTimers decides h
      exact .still
  | sender a =>
    obtain ⟨-,pipe,moved,rfl⟩ := stepSender h
    exact .moved a permitted moved

end Parts

def accepts (conf : Conf) (packs : List Bytes) : List Key :=
  (packs.filter (Sessions.Accepted conf)).map sprintBuf

def reading : TimerRace.Server → Bool → List Key
  | .read id action _, r => if action = r then [id] else []
  | _, _ => []

def seen (timers : TimerRace.State) (r : Bool) : List Key :=
  (timers.handled.filter (fun x => x.action = r)).map Reading.id ++ reading timers.server r

def waiting (conf : Conf) (buf : Option (Bool × Bytes)) (r : Bool) : List Key :=
  match buf with
  | some (i,pack) => if i = r then accepts conf [pack] else []
  | none => []

theorem acceptsAppend (conf : Conf) (xs ys : List Bytes) :
    accepts conf (xs ++ ys) = accepts conf xs ++ accepts conf ys := by
  rw [accepts,List.filter_append,List.map_append]; rfl

theorem receiversTaken {receive : Conf} {d m : Delivery.System UInt8} {a : Delivery.Act UInt8 size}
    (other : a ≠ .msgLoop) (h : Delivery.step receive 0 d a = some m) :
    m.loop.taken = d.loop.taken := by
  cases a <;> simp only [Delivery.step] at h
  case msgLoop => exact absurd rfl other
  case connect r ok =>
    obtain ⟨sender,-,rfl⟩ := Option.map_eq_some_iff.mp h
    cases ok <;> rfl
  case send r sendedlen =>
    obtain ⟨sender,-,rfl⟩ := Option.map_eq_some_iff.mp h
    simp only [Delivery.sendOn]
    split
    · unfold Delivery.putOn
      split <;> rfl
    · rfl
  all_goals
    obtain ⟨sender,-,rfl⟩ := Option.map_eq_some_iff.mp h
    rfl

theorem readNothing {l m : MsgLoop.Loop UInt8} (taken : m.taken = l.taken) : readInto l m = none := by
  unfold readInto
  split
  · rw [taken,List.getElem?_eq_none (Nat.le_refl _)]; rfl
  · rfl

theorem msgLoopReads {l m : MsgLoop.Loop UInt8} (h : MsgLoop.step size l = some m) :
    (readInto l m = none ∧ m.taken = l.taken) ∨
    ∃ i pack, readInto l m = some (i,pack) ∧ pack.length = size ∧
      m.taken = MsgLoop.setAt l.taken i (l.taken i ++ [pack]) := by
  have quiet (taken : m.taken = l.taken) : readInto l m = none ∧ m.taken = l.taken :=
    ⟨readNothing taken,taken⟩
  unfold MsgLoop.step at h
  split at h
  · refine .inl (quiet ?_)
    unfold MsgLoop.poll at h
    split at h
    · cases Option.some.inj h; rfl
    · obtain ⟨-,rfl⟩ := Runs.guarded h; rfl
  · refine .inl (quiet ?_)
    unfold MsgLoop.accept at h
    split at h
    · split at h <;> try contradiction
      cases Option.some.inj h; rfl
    · cases Option.some.inj h; rfl
  · rename_i i here
    unfold MsgLoop.readFd at h
    split at h
    · split at h
      · cases Option.some.inj h; exact .inl (quiet rfl)
      · dsimp only at h
        split at h
        · cases Option.some.inj h; exact .inl (quiet rfl)
        · split at h
          · rename_i fd _ _ enough
            cases Option.some.inj h
            refine .inr ⟨i,(l.conns fd).unread.take size,?_,?_,rfl⟩
            · simp [readInto,here]
            · rw [List.length_take]; omega
          · split at h <;> try contradiction
            cases Option.some.inj h; exact .inl (quiet rfl)
    · cases Option.some.inj h; exact .inl (quiet rfl)
  · contradiction

theorem seenGet {timeout s t id action} (r : Bool)
    (h : TimerRace.step timeout s (.get id action) = some t) :
    seen t r = seen s r ++ if action = r then [id] else [] := by
  obtain ⟨idle,rfl⟩ := TimerRace.stepGet h
  simp [seen,reading,idle]

theorem seenOther {timeout s a t} (r : Bool) (noGet : ∀ id action, a ≠ .get id action)
    (h : TimerRace.step timeout s a = some t) :
    seen t r = seen s r ∧ (s.server = .idle → t.server = .idle) := by
  cases a with
  | get id action => exact absurd rfl (noGet id action)
  | set =>
    obtain ⟨id,action,state,here,rfl⟩ := TimerRace.stepSet h
    by_cases own : action = r <;> simp [seen,reading,here,own]
  | setTimeout now =>
    obtain ⟨id,server,-,rfl⟩ := TimerRace.stepSetTimeout h
    simp [seen,reading,server]
  | lock curr => obtain ⟨-,rfl⟩ := TimerRace.stepLock h; exact ⟨rfl,id⟩
  | test => obtain ⟨curr,n,key,value,-,-,rfl⟩ := TimerRace.stepTest h; exact ⟨rfl,id⟩
  | getStudent => obtain ⟨curr,n,key,-,rfl⟩ := TimerRace.stepGetStudent h; exact ⟨rfl,id⟩
  | delStudent => obtain ⟨curr,n,key,state,-,rfl⟩ := TimerRace.stepDelStudent h; exact ⟨rfl,id⟩
  | unlink => obtain ⟨curr,n,key,state,-,rfl⟩ := TimerRace.stepUnlink h; exact ⟨rfl,id⟩
  | decide => obtain ⟨curr,n,key,state,-,rfl⟩ := TimerRace.stepDecide h; exact ⟨rfl,id⟩
  | unlock => obtain ⟨curr,n,-,-,rfl⟩ := TimerRace.stepUnlock h; exact ⟨rfl,id⟩

theorem sameCalls {ρ β : Type} {l : Limits} {enc : ρ → List β} {s t : Pipe ρ β}
    {a : NotifyQueue.Act ρ} (other : ∀ call, a ≠ .notify call)
    (h : NotifyQueue.step l enc s a = some t) : t.calls = s.calls := by
  cases a with
  | notify call => exact absurd rfl (other call)
  | enter => obtain ⟨-,rfl⟩ := stepEnter h; rfl
  | testEmpty => obtain ⟨-,rfl⟩ := stepTestEmpty h; rfl
  | testLong => obtain ⟨-,rfl⟩ := stepTestLong h; split <;> rfl
  | setLimit => obtain ⟨-,rfl⟩ := stepSetLimit h; rfl
  | dequeue => obtain ⟨-,rfl⟩ := Runs.guarded h; split <;> rfl
  | upload reply => obtain ⟨body,-,-,rfl⟩ := stepUpload h; split <;> rfl

theorem notifyCalls {l : Limits} {pipe next : Pipe Notice UInt8} (calls : List Notice)
    (h : notify l size pipe calls = some next) : next.calls = pipe.calls ++ calls := by
  induction calls generalizing pipe with
  | nil => cases Option.some.inj h; simp
  | cons call rest ih =>
    obtain ⟨m,moved,later⟩ := Runs.execCons h
    rw [ih later,stepNotify moved,List.append_assoc]; rfl

structure Joined (conf : Conf) (size : Nat) (s : State) : Prop where
  free : s.buf.isSome → s.timers.server = .idle
  wide : ∀ r, ∀ pack ∈ s.delivery.loop.taken r, pack.length = size
  counted : ∀ r, accepts conf (s.delivery.loop.taken r) = seen s.timers r ++ waiting conf s.buf r
  notified : s.pipe.calls = s.timers.notices
  decided : s.timers.notices = s.timers.evaluated.flatMap verdicts

theorem initialJoined (conf : Conf) : Joined conf size initial := by
  constructor <;> simp [initial,Delivery.initial,MsgLoop.initial,TimerRace.initial,
    NotifyQueue.initial,accepts,seen,reading,waiting]

theorem stepJoined {receive conf : Conf} {s t : State} {a : Act size} (joined : Joined conf size s)
    (h : step receive conf s a = some t) : Joined conf size t := by
  obtain ⟨free,wide,counted,notified,decided⟩ := joined
  cases a with
  | receivers a =>
    obtain ⟨other,m,moved,rfl⟩ := stepReceivers h
    have taken := receiversTaken other moved
    exact ⟨free,by rw [taken]; exact wide,by rw [taken]; exact counted,notified,decided⟩
  | msgLoop =>
    obtain ⟨⟨empty,idle⟩,loop,moved,rfl⟩ := stepMsgLoop h
    rw [empty] at counted
    rcases msgLoopReads moved with ⟨nothing,taken⟩ | ⟨i,pack,read,one,taken⟩
    · refine ⟨fun _ => idle,?_,?_,notified,decided⟩ <;> simp only [taken,nothing]
      · exact wide
      · exact counted
    · refine ⟨fun _ => idle,fun r => ?_,fun r => ?_,notified,decided⟩ <;> simp only [taken,read]
      · by_cases own : r = i
        · subst r
          intro p mem
          rw [MsgLoop.setAtSame] at mem
          rcases List.mem_append.mp mem with old | new
          · exact wide i p old
          · rw [List.mem_singleton.mp new]; exact one
        · rw [MsgLoop.setAtOther _ _ own]; exact wide r
      · by_cases own : r = i
        · subst r
          rw [MsgLoop.setAtSame,acceptsAppend,counted i]
          simp [waiting]
        · rw [MsgLoop.setAtOther _ _ own,counted r]
          simp [waiting,Ne.symm own]
  | handlePacket =>
    obtain ⟨i,pack,here,⟨accepted,timers,moved,rfl⟩ | ⟨rejected,rfl⟩⟩ := stepHandle h
    · have quiet := undecided (by simp) moved
      refine ⟨by simp,wide,fun r => ?_,notified.trans quiet.2.symm,?_⟩
      · rw [counted r,seenGet r moved,here]
        simp [waiting,accepts,accepted]
      · simp only [quiet.1,quiet.2]; exact decided
    · refine ⟨by simp,wide,fun r => ?_,notified,decided⟩
      rw [counted r,here]
      simp [waiting,accepts,rejected]
  | timers a =>
    by_cases decides : a = .decide
    · subst a
      obtain ⟨curr,n,id,state,pipe,-,calls,rfl⟩ := stepDecide h
      refine ⟨free,wide,counted,?_,?_⟩
      · simp only [notifyCalls _ calls,notified]
      · simp only [decided,List.flatMap_append,List.flatMap_singleton]; rfl
    · obtain ⟨noGet,timers,moved,rfl⟩ := stepTimers decides h
      have quiet := undecided decides moved
      refine ⟨fun waits => (seenOther true noGet moved).2 (free waits),wide,fun r => ?_,
        notified.trans quiet.2.symm,?_⟩
      · rw [counted r,(seenOther r noGet moved).1]
      · simp only [quiet.1,quiet.2]; exact decided
  | sender a =>
    obtain ⟨other,pipe,moved,rfl⟩ := stepSender h
    exact ⟨free,wide,counted,(sameCalls other moved).trans notified,decided⟩

def named (call : Records.Notice size) : Notice := (sprintBuf call.1.val,call.2)

theorem requestLength (call : Notice) : (request size call).length = requestSize size := by
  simp only [request,List.length_append,List.takeD_length,requestSize,List.length_cons,List.length_nil]
  omega

theorem requestNamed (call : Records.Notice size) : request size (named call) = Records.record call := by
  have whole : (sprintBuf call.1.val).length = 2 * size := by rw [sprintBufLength,call.1.property]
  simp only [request,named,Records.record]
  rw [List.takeD_eq_take _ (Nat.le_of_eq whole.symm),← whole,List.take_length]

structure Carries (l : Limits) (size : Nat) (pipe : Pipe Notice UInt8) (records : Pipe Notice Notice) :
    Prop where
  sound : Sound l pipe
  soundRecords : Sound (Framing.inRecords (requestSize size) l) records
  once : Conservation.EachOnce (fun call => [call]) records
  refines : Framing.Refines (request size) (requestSize size) pipe records

theorem stepCarries {l : Limits} (limit : (requestSize size : Int) ≤ l.maxDataLen)
    {pipe next : Pipe Notice UInt8} {a} (carries : ∃ records, Carries l size pipe records)
    (cut : Framing.WholeCut l (requestSize size) pipe a)
    (h : NotifyQueue.step l (request size) pipe a = some next) :
    ∃ records, Carries l size next records := by
  obtain ⟨records,sound,soundRecords,once,refines⟩ := carries
  have bound := Framing.inRecordsLimit limit
  obtain ⟨after,moved,refines⟩ := Framing.stepRefines requestLength (by unfold requestSize; omega)
    limit sound refines cut h
  exact ⟨after,stepSound (by omega) sound h,stepSound bound soundRecords moved,
    Conservation.stepEachOnce bound soundRecords once moved,refines⟩

theorem carriedOnce {l : Limits} {pipe : Pipe Notice UInt8} {records} (carries : Carries l size pipe records) :
    (records.acked.flatten ++ records.sendBuf.getD [] ++ records.queue.cells).Perm pipe.calls :=
  carries.refines.calls ▸ Conservation.callsOnce carries.once

theorem liftAll {α β : Type} {f : α → β} {xs : List β} (all : ∀ x ∈ xs, ∃ a, f a = x) :
    ∃ as, List.map f as = xs := by
  have inside : xs ∈ {l : List β | ∀ x ∈ l, x ∈ Set.range f} := all
  rw [← Set.range_list_map] at inside
  exact inside

theorem decodeNamed (calls : List (Records.Notice size)) :
    decodeBody size ((calls.map named).flatMap (request size)) = some calls := by
  rw [List.flatMap_map]
  simp only [requestNamed]
  exact Records.decodeBodyReads calls

theorem rejectsHeartbeat (conf : Conf) : ¬ Sessions.Accepted conf (SendQueue.heartbeat size 0) := by
  intro accepted
  have first := accepted.1
  split at first
  · obtain ⟨b,mem,nonzero⟩ := first
    exact nonzero (List.eq_of_mem_replicate mem)
  · exact first (by cases size <;> rfl)

theorem acceptsData (conf : Conf) (packs : List Bytes) :
    accepts conf (packs.filter (· ≠ SendQueue.heartbeat size 0)) = accepts conf packs := by
  rw [accepts,List.filter_filter,accepts]
  congr 1
  refine List.filter_congr (fun pack _ => ?_)
  by_cases beat : pack = SendQueue.heartbeat size 0
  · simp [beat,rejectsHeartbeat]
  · simp [beat]

theorem noticeNamed {conf : Conf} {s : State} (joined : Joined conf size s) (inv : TimerRace.Inv s.timers)
    {notice : Notice} (mem : notice ∈ s.timers.notices) :
    ∃ call : Records.Notice size, named call = notice := by
  rw [joined.decided] at mem
  obtain ⟨item,evaluated,found⟩ := List.mem_flatMap.mp mem
  have faithful := inv.faithful item (by simp [TimerRace.sessions,TimerRace.taken,evaluated])
  obtain ⟨action,decided,rfl⟩ := List.mem_map.mp found
  -- a session without readings has no verdict
  have some_reading : item.2.readings ≠ [] := by
    intro empty
    rw [faithful.1,empty] at decided
    cases action <;> exact absurd decided (by decide)
  obtain ⟨r,mem⟩ := List.exists_mem_of_ne_nil _ some_reading
  have handled : r ∈ s.timers.handled := inv.perm.subset (List.mem_flatMap.mpr
    ⟨item,by simp [TimerRace.sessions,TimerRace.taken,evaluated],mem⟩)
  have called : r.id ∈ accepts conf (s.delivery.loop.taken r.action) := by
    rw [joined.counted]
    refine List.mem_append_left _ (List.mem_append_left _ (List.mem_map_of_mem ?_))
    exact List.mem_filter.mpr ⟨handled,by simp⟩
  obtain ⟨pack,taken,same⟩ := List.mem_map.mp called
  have wide := joined.wide r.action pack (List.mem_filter.mp taken).1
  exact ⟨(⟨pack,wide⟩,action),by rw [named,same,faithful.2 r mem]⟩

/-- For each role the accepted packets that its receiver queued are, in order, those given to
handle_student, the one before it, and those on a connection, in the batch and in the queue.
Every reading is in one session. What is acknowledged, pending and queued for the cloud reads
back as the verdicts of the sessions that ended, each once. -/
structure EndToEnd (conf : Conf) (size : Nat) (s : State) : Prop where
  counted : ∀ r, seen s.timers r ++ waiting conf s.buf r ++
    accepts conf (inFlight size 0 s.delivery.loop r) ++
    accepts conf (dataFrames size 0 (s.delivery.senders r).pending) ++
    accepts conf (dataFrames size 0 (s.delivery.senders r).queue.cells) =
      accepts conf (s.delivery.senders r).added
  conserved : Conserved s.timers
  reported : ∃ (acked : List (List (Records.Notice size))) (pending queued : List (Records.Notice size)),
    s.pipe.acked.map (decodeBody size) = acked.map some ∧
    decodeBody size (s.pipe.sendBuf.getD []) = some pending ∧
    decodeBody size s.pipe.queue.cells = some queued ∧
    ((acked.flatten ++ pending ++ queued).map named).Perm
      (s.timers.evaluated.flatMap sessionVerdicts)

theorem reportedOfParts {conf : Conf} {s : State} (joined : Joined conf size s)
    (inv : TimerRace.Inv s.timers) {records}
    (carries : Carries (limits conf) size s.pipe records) :
    ∃ (acked : List (List (Records.Notice size))) (pending queued : List (Records.Notice size)),
    s.pipe.acked.map (decodeBody size) = acked.map some ∧
    decodeBody size (s.pipe.sendBuf.getD []) = some pending ∧
    decodeBody size s.pipe.queue.cells = some queued ∧
    ((acked.flatten ++ pending ++ queued).map named).Perm
      (s.timers.evaluated.flatMap sessionVerdicts) := by
  have once := carriedOnce carries
  have known : ∀ notice ∈ records.acked.flatten ++ records.sendBuf.getD [] ++ records.queue.cells,
      ∃ call : Records.Notice size, named call = notice := by
    intro notice mem
    have called := once.subset mem
    rw [joined.notified] at called
    exact noticeNamed joined inv called
  obtain ⟨acked,ackedIs⟩ : ∃ acked : List (List (Records.Notice size)),
      acked.map (List.map named) = records.acked :=
    liftAll (fun body mem => liftAll (fun notice inside => known notice
      (List.mem_append_left _ (List.mem_append_left _ (List.mem_flatten_of_mem mem inside)))))
  obtain ⟨pending,pendingIs⟩ : ∃ pending : List (Records.Notice size),
      pending.map named = records.sendBuf.getD [] :=
    liftAll (fun notice inside => known notice (by simp [inside]))
  obtain ⟨queued,queuedIs⟩ : ∃ queued : List (Records.Notice size),
      queued.map named = records.queue.cells :=
    liftAll (fun notice inside => known notice (by simp [inside]))
  refine ⟨acked,pending,queued,?_,?_,?_,?_⟩
  · rw [carries.refines.acked,← ackedIs,List.map_map,List.map_map]
    exact List.map_congr_left (fun calls _ => decodeNamed calls)
  · have bytes : s.pipe.sendBuf.getD [] = (records.sendBuf.getD []).flatMap (request size) := by
      rw [carries.refines.sendBuf]
      cases records.sendBuf <;> rfl
    rw [bytes,← pendingIs,decodeNamed]
  · rw [carries.refines.queue,← queuedIs,decodeNamed]
  · rw [List.map_append,List.map_append,List.map_flatten,ackedIs,pendingIs,queuedIs]
    refine once.trans (List.Perm.of_eq ?_)
    rw [joined.notified,joined.decided]
    exact List.flatMap_congr (fun item mem => faithfulVerdicts
      (inv.faithful item (by simp [TimerRace.sessions,TimerRace.taken,mem])))

structure Running (conf : Conf) (size : Nat) (s : State) : Prop where
  linked : Delivery.AllLinked size 0 s.delivery
  inv : TimerRace.Inv s.timers
  carries : ∃ records, Carries (limits conf) size s.pipe records
  joined : Joined conf size s

theorem runningOf {receive conf : Conf} (positive : 1 ≤ size) (same : SendQueue.packetSize receive = size)
    (limit : (requestSize size : Int) ≤ (limits conf).maxDataLen) {acts : List (Act size)}
    (permitted : Runs.Meets (step receive conf) (Permitted conf size) initial acts) {s : State}
    (run : Runs.exec (step receive conf) initial acts = some s) : Running conf size s where
  linked := Parts.partInvariant State.delivery (fun _ _ _ => deliverySees)
    (fun _ _ _ linked careful h => Delivery.stepLinked positive same linked careful h)
    (fun r => Delivery.initialLinked positive r) permitted run
  inv := Parts.partInvariant State.timers (fun _ _ _ => timersSees)
    (TimerRace.keeps (studentTimeout conf)) TimerRace.initialInv permitted run
  carries := Parts.partInvariant (I := fun pipe => ∃ records, Carries (limits conf) size pipe records)
    State.pipe (fun _ _ _ => pipeSees) (fun _ _ _ => stepCarries limit)
    ⟨NotifyQueue.initial,initialSound _,initialSound _,Conservation.initialEachOnce _,
      Framing.initialRefines⟩ permitted run
  joined := Runs.invariant (fun _ _ _ => stepJoined) (initialJoined conf) run

theorem runningEndToEnd {conf : Conf} {s : State} (running : Running conf size s) : EndToEnd conf size s := by
  obtain ⟨linked,inv,⟨records,carries⟩,joined⟩ := running
  refine ⟨fun r => ?_,TimerRace.conservedOfInv s.timers inv,reportedOfParts joined inv carries⟩
  rw [← @acceptsData size conf (s.delivery.senders r).added,← (linked r).sender.inOrder,
    ← (linked r).balance,acceptsAppend,acceptsAppend,acceptsAppend,handed,acceptsData,joined.counted r]

/-- In every run whose steps are permitted, the station accounts for every packet from its
receiver to the cloud. -/
theorem endToEnd (receive conf : Conf) (positive : 1 ≤ size)
    (same : SendQueue.packetSize receive = size)
    (limit : (requestSize size : Int) ≤ (limits conf).maxDataLen) (acts : List (Act size))
    (permitted : Runs.Meets (step receive conf) (Permitted conf size) initial acts) :
    ∀ s, Runs.exec (step receive conf) initial acts = some s → EndToEnd conf size s :=
  fun _ run => runningEndToEnd (runningOf positive same limit permitted run)

def gate : Conf := [(ascii "student.timeout",ascii "60"),(ascii "student.checksum_enable",ascii "1"),
  (ascii "student.first_byte_zero_enable",ascii "0"),(ascii "http.max_data_len",ascii "12"),
  (ascii "cloud.ok_response",ascii "OK")]

def arrive (r : Bool) : List (Act 2) := [.receivers (.addToQueue r Delivery.fives),
  .receivers (.addToQueue r Delivery.fives),.receivers (.addToQueue r Delivery.fives),
  .receivers (.connect r true),.receivers (.take r),.receivers (.send r 6),
  .msgLoop,.msgLoop,.msgLoop,.msgLoop]

def turn (now : Clock) : Bool → List (Act 2)
  | false => [.msgLoop,.msgLoop,.msgLoop,.handlePacket,.timers .set,.timers (.setTimeout now),.msgLoop]
  | true => [.msgLoop,.msgLoop,.msgLoop,.msgLoop,.handlePacket,.timers .set,.timers (.setTimeout now)]

/- A student passes the slave and then the master, three readings each; a minute later the
session ends, and its record is uploaded and acknowledged. -/
def visit : List (Act 2) :=
  arrive true ++ turn (at_ 0 (by decide)) true ++ turn (at_ 1 (by decide)) true ++
  turn (at_ 2 (by decide)) true ++ arrive false ++ turn (at_ 3 (by decide)) false ++
  turn (at_ 4 (by decide)) false ++ turn (at_ 5 (by decide)) false ++
  [.timers (.lock (at_ 65 (by decide))),.timers .test,.timers .getStudent,.timers .delStudent,
    .timers .unlink,.timers .decide,.timers .unlock,.sender .enter,.sender .testEmpty,
    .sender .testLong,.sender .dequeue,.sender (.upload ⟨2,some (ascii "OK")⟩)]

theorem endToEndVisit : ∃ s, Runs.exec (step Delivery.twoBytes gate) initial visit = some s ∧
    s.pipe.acked = [ascii "05051."] ∧ EndToEnd gate 2 s := by
  have seen : (Runs.exec (step Delivery.twoBytes gate) initial visit).map
      (fun s => s.pipe.acked) = some [ascii "05051."] := by decide +kernel
  obtain ⟨s,run,acked⟩ := Option.map_eq_some_iff.mp seen
  exact ⟨s,run,acked,endToEnd Delivery.twoBytes gate (by decide) (by decide) (by decide) visit
    (by decide +kernel) s run⟩

end RfidStation.Station
