import RfidStation.Waiting

/-! What is delivered in the end: cron_send (receive/sender.c) with its connections up and its
sends whole, and the station once nothing is under way any more. -/
namespace RfidStation.Rest
open Config Buffers SendQueue Delivery

section Sends
variable {β : Type} {size : Int} {zero : β} {x y : Sender β}

def sendsLeft (x : Sender β) : Nat :=
  if x.queue.cells = [] then (if x.unsent ∧ x.sendbuf.heartbeat = false then 1 else 0)
  else if x.unsent then 2 else 1

theorem takeLeft (here : x.pc = .take) : sendsLeft (takeBatch size zero x) ≤ sendsLeft x := by
  unfold takeBatch
  split
  · rename_i ok
    split
    · rename_i none_queued
      split
      · simp [sendsLeft,Sender.unsent,here,ok]
      · simp [sendsLeft,List.length_eq_zero_iff.mp none_queued]
    · rename_i queued
      have some_queued : x.queue.cells ≠ [] := fun empty => queued (by rw [empty]; rfl)
      simp [sendsLeft,Sender.unsent,here,ok,shrinkAll,some_queued]
  · rename_i failed
    simp [sendsLeft,Sender.unsent,failed]

theorem sendLeft (here : x.pc = .send) {sendedlen : Int} (whole : x.sendbuf.cells.length ≤ sendedlen) :
    sendsLeft (afterSend x sendedlen) ≤ sendsLeft x - 1 := by
  rw [afterSend,if_neg (by omega)]
  by_cases empty : x.queue.cells = []
  · simp [sendsLeft,Sender.unsent,empty]
  · simp [sendsLeft,Sender.unsent,here,empty]

theorem nothingLeft
    (pending : x.unsent → x.sendbuf.heartbeat = true → x.sendbuf.cells = heartbeat size.toNat zero) (none_left : sendsLeft x = 0) :
    x.queue.cells = [] ∧ (x.pending = [] ∨ x.pending = heartbeat size.toNat zero) := by
  unfold sendsLeft at none_left
  split at none_left
  · refine ⟨‹_›,?_⟩
    by_cases unsent : x.unsent
    · have beat : x.sendbuf.heartbeat = true := by simpa [unsent] using none_left
      exact .inr (by rw [Sender.pending,if_pos unsent,pending unsent beat])
    · exact .inl (by rw [Sender.pending,if_neg unsent])
  · split at none_left <;> contradiction

theorem cutLeft (here : x.pc = .send) {sendedlen : Int} (short : sendedlen < x.sendbuf.cells.length) :
    sendsLeft (afterSend x sendedlen) = sendsLeft x := by
  rw [afterSend,if_pos short]
  simp [sendsLeft,Sender.unsent,here]

theorem connectLeft (here : x.pc = .connect) (sockfd : Option Nat) (pc : SendQueue.Pc) (other : pc ≠ .send) :
    sendsLeft {x with sockfd := sockfd, pc := pc} = sendsLeft x := by
  simp [sendsLeft,Sender.unsent,here,other]

theorem stepLeft {b : SendQueue.Act β} (quiet : ∀ buf, b ≠ .addToQueue buf)
    (h : SendQueue.step size zero x b = some y) : x.sent.length ≤ y.sent.length ∧
      sendsLeft y ≤ sendsLeft x - (y.sent.length - x.sent.length) := by
  cases b with
  | addToQueue buf => exact absurd rfl (quiet buf)
  | connect fd =>
    obtain ⟨here,⟨-,rfl⟩ | ⟨-,⟨-,rfl⟩ | ⟨n,-,rfl⟩⟩⟩ := stepConnect h
    · have same := connectLeft here x.sockfd .abort (by decide)
      exact ⟨Nat.le_refl _,by rw [Nat.sub_self]; exact Nat.le_of_eq same⟩
    · exact ⟨Nat.le_refl _,by rw [Nat.sub_self]; exact Nat.le_refl _⟩
    · have same := connectLeft here (some n) .take (by decide)
      exact ⟨Nat.le_refl _,by rw [Nat.sub_self]; exact Nat.le_of_eq same⟩
  | take =>
    obtain ⟨here,rfl⟩ := stepTake h
    rw [takeSent,Nat.sub_self]
    exact ⟨Nat.le_refl _,takeLeft here⟩
  | send sendedlen =>
    obtain ⟨here,rfl⟩ := stepSend h
    by_cases short : sendedlen < x.sendbuf.cells.length
    · have sent : (afterSend x sendedlen).sent = x.sent := by rw [afterSend,if_pos short]
      rw [sent,Nat.sub_self]
      exact ⟨Nat.le_refl _,Nat.le_of_eq (cutLeft here.1 short)⟩
    · have sent : (afterSend x sendedlen).sent = x.sent ++ [x.sendbuf] := by rw [afterSend,if_neg short]
      rw [sent,List.length_append,List.length_singleton,Nat.add_sub_cancel_left]
      exact ⟨Nat.le_add_right _ _,sendLeft here.1 (Int.not_lt.mp short)⟩

end Sends

section Deliveries
variable {β : Type} [DecidableEq β] {size : Nat} {zero : β} {conf : Conf} {s t : System β}
  {a : Delivery.Act β size} {r : Bool}
open MsgLoop (setAt setAtSame setAtOther)
open Waiting (Awake InRecvn stepAwake initialAwake waits)

omit [DecidableEq β] in
theorem senderSees (ok : Sender β → SendQueue.Act β → Prop) (h : Delivery.step conf zero s a = some t)
    (grants : ∀ x b, (∀ buf, b = .addToQueue buf → ∃ packet, a = .addToQueue r packet) → ok x b) :
    Parts.Sees (SendQueue.step (packetSize conf) zero) ok (s.senders r) (t.senders r) := by
  have sees {q : Bool} {sender : Sender β} {b : SendQueue.Act β}
      (moved : SendQueue.step (packetSize conf) zero (s.senders q) b = some sender)
      (own : q = r → ∀ buf, b = .addToQueue buf → ∃ packet, a = .addToQueue r packet) :
      Parts.Sees (SendQueue.step (packetSize conf) zero) ok (s.senders r) (setAt s.senders q sender r) := by
    by_cases same : r = q
    · subst q
      rw [setAtSame]
      exact .moved b (grants _ _ (own rfl)) moved
    · rw [setAtOther _ _ same]
      exact .still
  cases a with
  | addToQueue q packet =>
    simp only [Delivery.step] at h
    obtain ⟨sender,moved,rfl⟩ := Option.map_eq_some_iff.mp h
    exact sees moved (fun same buf _ => ⟨packet,by rw [same]⟩)
  | connect q ok =>
    obtain ⟨sender,moved,rfl⟩ := Option.map_eq_some_iff.mp h
    exact sees moved (by simp)
  | take q =>
    obtain ⟨sender,moved,rfl⟩ := Option.map_eq_some_iff.mp h
    exact sees moved (by simp)
  | send q sendedlen =>
    obtain ⟨sender,moved,rfl⟩ := Option.map_eq_some_iff.mp h
    exact sees moved (by simp)
  | msgLoop =>
    obtain ⟨loop,-,rfl⟩ := Option.map_eq_some_iff.mp h
    exact .still

/-- Once a receiver gets no more packets, two whole sends, however many are cut and however many
connections fail before and between them, send everything; and where msg_loop then waits, unless
it waits in recvn for the other receiver, everything has been handed over. -/
theorem delivers (conf : Conf) (zero : β) (positive : 1 ≤ size) (same : packetSize conf = size) (r : Bool)
    (acts more : List (Delivery.Act β size))
    (careful : Runs.Meets (Delivery.step conf zero) (Careful size zero) Delivery.initial (acts ++ more))
    (s t : System β) (before : Runs.exec (Delivery.step conf zero) Delivery.initial acts = some s)
    (run : Runs.exec (Delivery.step conf zero) s more = some t)
    (quiet : ∀ packet, (.addToQueue r packet : Delivery.Act β size) ∉ more)
    (sends : (s.senders r).sent.length + 2 ≤ (t.senders r).sent.length) :
    batchFrames size zero (t.senders r).sent =
      (t.senders r).added.filter (· ≠ heartbeat size zero) ∧
    (Delivery.step conf zero t (.msgLoop : Delivery.Act β size) = none → (∀ fd, ¬ InRecvn t (!r) fd) →
      handed size zero t.loop r = (t.senders r).added.filter (· ≠ heartbeat size zero)) := by
  have whole : Runs.exec (Delivery.step conf zero) Delivery.initial (acts ++ more) = some t := by
    rw [Runs.execAppend,before]
    exact run
  have awake : Awake size zero t := Runs.invariantUnder
    (fun _ _ _ awake careful h => stepAwake positive same awake careful h) (initialAwake positive) careful whole
  have conserved : Conserved (packetSize conf) zero (t.senders r) :=
    Parts.partInvariant (fun s : System β => s.senders r)
      (fun _ _ _ (_ : True) h => senderSees (fun _ _ => True) h (fun _ _ _ => trivial))
      (fun _ _ _ conserved _ h => stepConserved conserved h) (initialConserved _ zero)
      (Runs.meetsTrue _ _) whole
  have calm : Runs.Meets (Delivery.step conf zero)
      (fun _ a => ∀ packet, a ≠ (.addToQueue r packet : Delivery.Act β size)) s more :=
    Runs.meetsOf (fun a mem packet same => quiet packet (same ▸ mem))
  have left : (s.senders r).sent.length ≤ (t.senders r).sent.length ∧ sendsLeft (t.senders r) ≤
      sendsLeft (s.senders r) - ((t.senders r).sent.length - (s.senders r).sent.length) :=
    Parts.partInvariant (I := fun x => (s.senders r).sent.length ≤ x.sent.length ∧ sendsLeft x ≤
        sendsLeft (s.senders r) - (x.sent.length - (s.senders r).sent.length))
      (fun s : System β => s.senders r) (fun _ _ _ calm h => senderSees (fun _ b => ∀ buf, b ≠ .addToQueue buf) h
        (fun _ b added buf same => by
          obtain ⟨packet,here⟩ := added buf same
          exact calm packet here))
      (fun x b y bound added h => by
        obtain ⟨more,less⟩ := stepLeft added h
        omega)
      ⟨Nat.le_refl _,by omega⟩ calm run
  have most : sendsLeft (s.senders r) ≤ 2 := by
    unfold sendsLeft
    split <;> split <;> decide
  obtain ⟨empty,pending⟩ := nothingLeft conserved.beating (by omega)
  have inOrder := (awake.linked r).sender.inOrder
  have nothing : dataFrames size zero (t.senders r).pending = [] := by
    rcases pending with none_pending | beat
    · rw [none_pending]
      exact dataFramesShort positive
    · rw [beat,same]
      exact dataFramesHeartbeat positive
  rw [nothing,empty,dataFramesShort (s := []) positive,List.append_nil,List.append_nil] at inOrder
  refine ⟨inOrder,fun stuck other => ?_⟩
  rw [← inOrder,← (awake.linked r).balance]
  have none_left : inFlight size zero t.loop r = [] := by
    rcases waits positive awake (Option.map_eq_none_iff.mp stuck) with ⟨-,all⟩ | ⟨i,fd,waiting,here⟩
    · exact all r
    · by_cases own : i = r
      · exact own ▸ here
      · obtain rfl : i = !r := by cases i <;> cases r <;> simp_all
        exact absurd waiting (other fd)
  rw [none_left,List.append_nil]

end Deliveries

def cutOnce : List (Delivery.Act UInt8 2) :=
  [.addToQueue false fives,.connect false true,.take false,.send false 1]

def twoSends : List (Delivery.Act UInt8 2) :=
  [.connect false false,.connect false true,.take false,.send false 2,.take false,.send false 2] ++
    List.replicate 12 .msgLoop

theorem deliversCut : ∃ s t, Runs.exec (Delivery.step twoBytes 0) Delivery.initial cutOnce = some s ∧
    Runs.exec (Delivery.step twoBytes 0) s twoSends = some t ∧
    batchFrames 2 0 (t.senders false).sent = [[5,5]] := by
  have first : (Runs.exec (Delivery.step twoBytes 0) Delivery.initial cutOnce).map (fun s =>
      (s.senders false).sent.length) = some 0 := by decide +kernel
  have both : (Runs.exec (Delivery.step twoBytes 0) Delivery.initial (cutOnce ++ twoSends)).map (fun t =>
      ((t.senders false).sent.length,(t.senders false).added)) = some (2,[[5,5]]) := by decide +kernel
  obtain ⟨s,before,none_sent⟩ := Option.map_eq_some_iff.mp first
  rw [Runs.execAppend,before,Option.bind_some] at both
  obtain ⟨t,run,last⟩ := Option.map_eq_some_iff.mp both
  obtain ⟨sent,added⟩ := Prod.mk.inj last
  have all := (delivers twoBytes 0 (by decide) (by decide) false cutOnce twoSends (by decide +kernel) s t
    before run (by simp [twoSends]) (by rw [none_sent,sent])).1
  exact ⟨s,t,before,run,by rw [all,added]; decide⟩

section Station
variable {size : Nat} {receive conf : Conf} {s : Station.State}
open Cstr Station
open TimerRace (Reading readings sessions sessionVerdicts)

structure AtRest (size : Nat) (s : Station.State) : Prop where
  receivers : ∀ r, (s.delivery.senders r).queue.cells = [] ∧
    dataFrames size 0 (s.delivery.senders r).pending = []
  polls : s.delivery.loop.pc = .poll ∧ (MsgLoop.step size s.delivery.loop).isNone
  buf : s.buf = none
  timers : s.timers.server = .idle ∧ s.timers.checker = .idle ∧ s.timers.students = []
  cloud : s.pipe.sendBuf = none ∧ s.pipe.queue.cells = []

instance (size : Nat) (s : Station.State) : Decidable (AtRest size s) :=
  decidable_of_iff (((∀ r, (s.delivery.senders r).queue.cells = [] ∧
      dataFrames size 0 (s.delivery.senders r).pending = []) ∧
    s.delivery.loop.pc = .poll ∧ (MsgLoop.step size s.delivery.loop).isNone) ∧ s.buf = none ∧
    (s.timers.server = .idle ∧ s.timers.checker = .idle ∧ s.timers.students = []) ∧
    s.pipe.sendBuf = none ∧ s.pipe.queue.cells = [])
    ⟨fun h => ⟨h.1.1,h.1.2,h.2.1,h.2.2.1,h.2.2.2⟩,fun h => ⟨⟨h.1,h.2⟩,h.3,h.4,h.5⟩⟩

structure Accounted (conf : Conf) (size : Nat) (s : Station.State) : Prop where
  counted : ∀ r, (((readings s.timers.evaluated).filter (fun x => x.action = r)).map Reading.id).Perm
    (accepts conf (s.delivery.senders r).added)
  own : ∀ item ∈ s.timers.evaluated, ∀ x ∈ item.2.readings, x.id = item.1
  reported : ∃ acked : List (List (Records.Notice size)),
    s.pipe.acked.map (Records.decodeBody size) = acked.map some ∧
    (acked.flatten.map named).Perm (s.timers.evaluated.flatMap sessionVerdicts)

theorem restHandled (inv : TimerRace.Inv s.timers) (rest : AtRest size s) :
    (readings s.timers.evaluated).Perm s.timers.handled := by
  have all : sessions s.timers = s.timers.evaluated := by
    rw [sessions,rest.timers.2.2,TimerRace.taken,rest.timers.2.1]; rfl
  exact all ▸ inv.perm

theorem restCounted (pos : 0 < size) (running : Running conf size s) (rest : AtRest size s) (r : Bool) :
    seen s.timers r = accepts conf (s.delivery.senders r).added := by
  have counted := (runningEndToEnd running).counted r
  have stuck : MsgLoop.poll s.delivery.loop = none := by
    have waiting := rest.polls.2
    rw [MsgLoop.step,rest.polls.1] at waiting
    exact Option.isNone_iff_eq_none.mp waiting
  have nothing : dataFrames size (0 : UInt8) [] = [] := dataFramesShort pos
  rw [rest.buf,Waiting.pollSettled pos stuck r,(rest.receivers r).1,(rest.receivers r).2,nothing] at counted
  simpa [waiting,accepts] using counted

/-- In every run whose steps are permitted, where the station is at rest everything is accounted
for. -/
theorem restAccounted (receive conf : Conf) (positive : 1 ≤ size)
    (same : SendQueue.packetSize receive = size)
    (limit : (Records.requestSize size : Int) ≤ (NotifyQueue.limits conf).maxDataLen)
    (acts : List (Station.Act size))
    (permitted : Runs.Meets (Station.step receive conf) (Permitted conf size) Station.initial acts)
    (s : Station.State) (run : Runs.exec (Station.step receive conf) Station.initial acts = some s)
    (rest : AtRest size s) : Accounted conf size s := by
  have running := runningOf positive same limit permitted run
  refine ⟨fun r => ?_,fun item mem x read => ?_,?_⟩
  · have none_read : reading s.timers.server r = [] := by rw [rest.timers.1]; rfl
    rw [← restCounted positive running rest r,seen,none_read,List.append_nil]
    exact ((restHandled running.inv rest).filter _).map _
  · exact (running.inv.faithful item (by simp [sessions,TimerRace.taken,mem])).2 x read
  · obtain ⟨acked,pending,queued,whole,pendingIs,queuedIs,perm⟩ := (runningEndToEnd running).reported
    have empty : Records.decodeBody size [] = some [] := Records.decodeBodyReads []
    rw [rest.cloud.1,Option.getD_none,empty] at pendingIs
    rw [rest.cloud.2,empty] at queuedIs
    cases Option.some.inj pendingIs
    cases Option.some.inj queuedIs
    rw [List.append_nil,List.append_nil] at perm
    exact ⟨acked,whole,perm⟩

theorem restAccountedVisit : ∃ s, Runs.exec (Station.step twoBytes gate) Station.initial visit = some s ∧
    AtRest 2 s ∧ Accounted gate 2 s := by
  have seen : (Runs.exec (Station.step twoBytes gate) Station.initial visit).map
      (fun s => decide (AtRest 2 s)) = some true := by decide +kernel
  obtain ⟨s,run,same⟩ := Option.map_eq_some_iff.mp seen
  have rest := of_decide_eq_true same
  exact ⟨s,run,rest,restAccounted twoBytes gate (by decide) (by decide) (by decide) visit
    (by decide +kernel) s run rest⟩

end Station

end RfidStation.Rest
