import RfidStation.Rest
import RfidStation.Lib.History

/-! Receivers that watch themselves (receiver.c). on_irq sets nrf_is_working with every packet,
before it queues it; cron_check_nrf_working tests and clears the flag, and when it returns main
closes all connections and runs the program again, which knows nothing of what was queued. -/
namespace RfidStation.Restarts
open Config Buffers SendQueue Delivery
open MsgLoop (setAt setAtSame setAtOther)

/- Program points of cron_check_nrf_working: the sleep and the test after it, and the clearing.
`leaving` is after its return, until execvp, and `exiting` in its exit. -/
inductive Pc where
  | test | clear | leaving | exiting | exited
  deriving DecidableEq, Repr

inductive Event where
  | received | passed | cleared | left | started
  deriving DecidableEq, Repr

/- What one process received, and what of it was lost with the process. -/
structure Life (β : Type) where
  received : List (List β)
  lost : List (List β)

/- `inHand` is the packet that on_irq has read from the radio and not yet queued. `received`,
`lives` and `log` are history: of this process, of those before it, and of both. -/
structure Process (β : Type) (size : Nat) where
  nrfIsWorking : Bool
  pc : Pc
  inHand : Option {cells : List β // cells.length = size}
  received : List (List β)
  lives : List (Life β)
  log : List Event

structure State (β : Type) (size : Nat) where
  delivery : System β
  processes : Bool → Process β size

-- `check` is the next access of cron_check_nrf_working.
inductive Act (β : Type) (size : Nat) where
  | irq (r : Bool) (packet : {cells : List β // cells.length = size})
  | queue (r : Bool)
  | check (r : Bool)
  | stop (r : Bool) (accepted : Nat)
  | delivery (a : Delivery.Act β size)
  deriving DecidableEq, Repr

variable {β : Type} [DecidableEq β] {size : Nat} {zero : β}

def initial : State β size := ⟨Delivery.initial,fun _ => ⟨false,.test,none,[],[],[]⟩⟩

def checkInterval (conf : Conf) : Int := getInt conf "nrf.check_working_interval"

def check (conf : Conf) (p : Process β size) : Option (Process β size) :=
  match p.pc with
  | .test =>
    if checkInterval conf < 1 then some {p with pc := .exiting}
    else if p.nrfIsWorking then some {p with pc := .clear, log := .passed :: p.log}
    else some {p with pc := .leaving, log := .left :: p.log}
  | .clear => some {p with nrfIsWorking := false, pc := .test, log := .cleared :: p.log}
  | .leaving | .exiting | .exited => none

def cutOff (x : Sender β) (accepted : Nat) : List β :=
  if x.pc = .send then x.sendbuf.cells.take accepted else []

def whole (size : Nat) (cells : List β) : List β := cells.take (size * (cells.length / size))

def data (size : Nat) (zero : β) (packets : List (List β)) : List (List β) :=
  packets.filter (· ≠ heartbeat size zero)

def Process.held (p : Process β size) : List (List β) := p.inHand.toList.map Subtype.val

def lost (zero : β) (x : Sender β) (p : Process β size) (accepted : Nat) : List (List β) :=
  dataFrames size zero (x.pending.drop (whole size (cutOff x accepted)).length) ++
    dataFrames size zero x.queue.cells ++ data size zero p.held

-- The sender of a new process. `sent` and `added` keep what was not lost.
def anew (size : Nat) (zero : β) (x : Sender β) (accepted : Nat) : Sender β :=
  let sent := x.sent ++ [⟨x.sendbuf.heartbeat,whole size (cutOff x accepted)⟩]
  {SendQueue.initial with sent := sent, added := batchFrames size zero sent}

def closed (l : MsgLoop.Loop β) (x : Sender β) (accepted : Nat) : MsgLoop.Loop β :=
  match x.sockfd with
  | some fd => putOn l fd (cutOff x accepted) true
  | none => l

def stop (zero : β) (s : State β size) (r : Bool) (accepted : Nat) (pc : Pc) (log : List Event) :
    State β size :=
  let x := s.delivery.senders r
  let p := s.processes r
  ⟨⟨setAt s.delivery.senders r (anew size zero x accepted),closed s.delivery.loop x accepted⟩,
    setAt s.processes r ⟨false,pc,none,[],p.lives ++ [⟨p.received,lost zero x p accepted⟩],log⟩⟩

def runs (s : State β size) : Delivery.Act β size → Bool
  | .addToQueue _ _ => false
  | .connect r _ | .take r | .send r _ => (s.processes r).pc ≠ .exited
  | .msgLoop => true

def step (conf : Conf) (zero : β) (s : State β size) : Act β size → Option (State β size)
  | .irq r packet =>
    let p := s.processes r
    if p.pc ≠ .exited ∧ p.inHand.isNone then some {s with processes := setAt s.processes r {p with
        nrfIsWorking := true
        inHand := some packet
        received := p.received ++ [packet.val]
        log := .received :: p.log}} else none
  | .queue r =>
    let p := s.processes r
    if p.pc = .exited then none else p.inHand.bind (fun packet =>
      (Delivery.step conf zero s.delivery (.addToQueue r packet)).map (fun delivery =>
        ⟨delivery,setAt s.processes r {p with inHand := none}⟩))
  | .check r => (check conf (s.processes r)).map (fun p => {s with processes := setAt s.processes r p})
  | .stop r accepted =>
    match (s.processes r).pc with
    | .leaving => some (stop zero s r accepted .test (.started :: (s.processes r).log))
    | .exiting => some (stop zero s r accepted .exited (s.processes r).log)
    | .test | .clear | .exited => none
  | .delivery a => if runs s a then
      (Delivery.step conf zero s.delivery a).map (fun delivery => {s with delivery := delivery}) else none

section Steps
variable {conf : Conf} {s t : State β size}

theorem stepIrq {r packet} (h : step conf zero s (.irq r packet) = some t) :
    ((s.processes r).pc ≠ .exited ∧ (s.processes r).inHand = none) ∧
    t = {s with processes := setAt s.processes r {s.processes r with
        nrfIsWorking := true
        inHand := some packet
        received := (s.processes r).received ++ [packet.val]
        log := .received :: (s.processes r).log}} := by
  obtain ⟨⟨running,free⟩,same⟩ := Runs.guarded h
  exact ⟨⟨running,Option.isNone_iff_eq_none.mp free⟩,same⟩

theorem stepQueue {r} (h : step conf zero s (.queue r) = some t) :
    (s.processes r).pc ≠ .exited ∧ ∃ packet, (s.processes r).inHand = some packet ∧ ∃ delivery,
      Delivery.step conf zero s.delivery (.addToQueue r packet) = some delivery ∧
      t = ⟨delivery,setAt s.processes r {s.processes r with inHand := none}⟩ := by
  obtain ⟨running,moved⟩ := Option.ite_none_left_eq_some.mp h
  obtain ⟨packet,here,later⟩ := Option.bind_eq_some_iff.mp moved
  obtain ⟨delivery,added,same⟩ := Option.map_eq_some_iff.mp later
  exact ⟨running,packet,here,delivery,added,same.symm⟩

theorem stepCheck {r} (h : step conf zero s (.check r) = some t) : ∃ p,
    check conf (s.processes r) = some p ∧ t = {s with processes := setAt s.processes r p} := by
  obtain ⟨p,moved,same⟩ := Option.map_eq_some_iff.mp h
  exact ⟨p,moved,same.symm⟩

omit [DecidableEq β] in
theorem checkCases {p q : Process β size} (h : check conf p = some q) :
    (p.pc = .test ∧ checkInterval conf < 1 ∧ q = {p with pc := .exiting}) ∨
    (p.pc = .test ∧ p.nrfIsWorking = true ∧ q = {p with pc := .clear, log := .passed :: p.log}) ∨
    (p.pc = .test ∧ p.nrfIsWorking = false ∧ q = {p with pc := .leaving, log := .left :: p.log}) ∨
    (p.pc = .clear ∧ q = {p with nrfIsWorking := false, pc := .test, log := .cleared :: p.log}) := by
  unfold check at h
  split at h <;> try contradiction
  · split at h
    · exact .inl ⟨‹_›,‹_›,(Option.some.inj h).symm⟩
    · split at h
      · exact .inr (.inl ⟨‹_›,‹_›,(Option.some.inj h).symm⟩)
      · exact .inr (.inr (.inl ⟨‹_›,Bool.eq_false_iff.mpr ‹_›,(Option.some.inj h).symm⟩))
  · exact .inr (.inr (.inr ⟨‹_›,(Option.some.inj h).symm⟩))

theorem stepStop {r accepted} (h : step conf zero s (.stop r accepted) = some t) :
    ((s.processes r).pc = .leaving ∧ t = stop zero s r accepted .test (.started :: (s.processes r).log)) ∨
    ((s.processes r).pc = .exiting ∧ t = stop zero s r accepted .exited (s.processes r).log) := by
  simp only [step] at h
  split at h <;> try contradiction
  · exact .inl ⟨‹_›,(Option.some.inj h).symm⟩
  · exact .inr ⟨‹_›,(Option.some.inj h).symm⟩

theorem stepDelivery {a} (h : step conf zero s (.delivery a) = some t) : runs s a = true ∧ ∃ delivery,
    Delivery.step conf zero s.delivery a = some delivery ∧ t = {s with delivery := delivery} := by
  obtain ⟨running,moved⟩ := Option.ite_none_right_eq_some.mp h
  obtain ⟨delivery,next,same⟩ := Option.map_eq_some_iff.mp moved
  exact ⟨running,delivery,next,same.symm⟩

end Steps

section CutOff
variable {x : Sender β} {accepted : Nat}

omit [DecidableEq β] in
theorem wholeDivides (size : Nat) (cells : List β) : size ∣ (whole size cells).length := by
  have less : size * (cells.length / size) ≤ cells.length := Nat.mul_div_le _ _
  rw [whole,List.length_take,Nat.min_eq_left less]
  exact Nat.dvd_mul_right _ _

theorem wholeFrames (pos : 0 < size) (cells : List β) :
    dataFrames size zero (whole size cells) = dataFrames size zero cells := by
  have less : size * (cells.length / size) ≤ cells.length := Nat.mul_div_le _ _
  have rest : (cells.drop (size * (cells.length / size))).length < size := by
    have parts := Nat.div_add_mod cells.length size
    have small := Nat.mod_lt cells.length pos
    rw [List.length_drop]
    omega
  have both : dataFrames size zero (whole size cells ++ cells.drop (size * (cells.length / size))) = _ :=
    dataFramesAppend pos (wholeDivides size cells) _
  rw [whole,List.take_append_drop,dataFramesShort rest,List.append_nil] at both
  exact both.symm

theorem pendingParts (pos : 0 < size) : dataFrames size zero x.pending =
    dataFrames size zero (cutOff x accepted) ++
      dataFrames size zero (x.pending.drop (whole size (cutOff x accepted)).length) := by
  have first : x.pending.take (whole size (cutOff x accepted)).length =
      whole size (cutOff x accepted) := by
    by_cases sending : x.pc = .send
    · rw [Sender.pending,if_pos (.inl sending),cutOff,if_pos sending]
      exact (List.prefix_iff_eq_take.mp ((List.take_prefix _ _).trans (List.take_prefix _ _))).symm
    · rw [cutOff,if_neg sending]
      simp [whole]
  have divides := wholeDivides size (cutOff x accepted)
  rw [← first] at divides
  have parts : dataFrames size zero (x.pending.take (whole size (cutOff x accepted)).length ++
      x.pending.drop (whole size (cutOff x accepted)).length) = _ := dataFramesAppend pos divides _
  rw [List.take_append_drop,first,wholeFrames pos] at parts
  exact parts

theorem anewSent (pos : 0 < size) : batchFrames size zero (anew size zero x accepted).sent =
    batchFrames size zero x.sent ++ dataFrames size zero (cutOff x accepted) := by
  rw [anew,batchFrames,List.flatMap_append,List.flatMap_singleton,wholeFrames pos]
  rfl

end CutOff

section Stops
variable {x : Sender β} {l : MsgLoop.Loop β} {r : Bool} {accepted : Nat}

theorem batchFramesData (batches : List (Batch β)) :
    data size zero (batchFrames size zero batches) = batchFrames size zero batches := by
  refine List.filter_eq_self.mpr (fun packet mem => ?_)
  obtain ⟨batch,-,inside⟩ := List.mem_flatMap.mp mem
  exact (List.mem_filter.mp inside).2

theorem batchFramesWide {batches : List (Batch β)} {packet : List β}
    (mem : packet ∈ batchFrames size zero batches) : packet.length = size := by
  obtain ⟨batch,-,inside⟩ := List.mem_flatMap.mp mem
  exact Blocks.blocksWide (List.mem_filter.mp inside).1

theorem anewFramed (pos : 0 < size) (framed : Framed size zero x) :
    Framed size zero (anew size zero x accepted) := by
  have fresh : Framed size zero (SendQueue.initial : Sender β) := initialFramed pos
  refine ⟨fresh.queue,fresh.pending,fresh.connected,fresh.alive,fun packet mem => batchFramesWide mem,?_,?_⟩
  · intro batch mem
    rcases List.mem_append.mp mem with before | last
    · exact framed.batches batch before
    · rw [List.mem_singleton.mp last]
      exact wholeDivides size _
  · have nothing : dataFrames size zero ([] : List β) = [] := dataFramesShort pos
    have pending : (anew size zero x accepted).pending = [] := rfl
    have queue : (anew size zero x accepted).queue.cells = [] := rfl
    rw [pending,queue,nothing,List.append_nil,List.append_nil]
    exact (batchFramesData _).symm

theorem closedLinked (pos : 0 < size) (linked : Linked size zero x l r) :
    Linked size zero (anew size zero x accepted) (closed l x accepted) r := by
  have framed : Framed size zero (anew size zero x accepted) := anewFramed pos linked.sender
  unfold closed
  split
  · rename_i fd using_it
    exact putOnLinked pos linked using_it _ true framed rfl (by simp) (anewSent pos)
  · rename_i free
    have idle : cutOff x accepted = [] := by
      rw [cutOff,linked.sender.connected.mp free]
      rfl
    have sent : batchFrames size zero (anew size zero x accepted).sent = _ := anewSent pos
    rw [idle,dataFramesShort (s := []) pos,List.append_nil] at sent
    exact ⟨framed,linked.known,linked.distinct,by simp [anew,SendQueue.initial],
      by rw [sent]; exact linked.balance⟩

theorem closedElsewhere {q : Bool} (own : Linked size zero x l q) (other : q ≠ r) {y : Sender β}
    (linked : Linked size zero y l r) : Linked size zero y (closed l x accepted) r := by
  unfold closed
  split
  · rename_i fd using_it
    obtain ⟨older,ends,-⟩ := own.current fd using_it
    have role : (l.conns fd).role = q := (own.known fd (by rw [ends]; simp)).2
    exact putOnElsewhere linked _ _ (by rw [role]; exact other)
  · exact linked

end Stops

def Lived (size : Nat) (zero : β) (life : Life β) (kept : List (List β)) : Prop :=
  data size zero life.received = kept ++ life.lost

def Accounted (size : Nat) (zero : β) (s : State β size) (r : Bool) : Prop :=
  let x := s.delivery.senders r
  let p := s.processes r
  ∃ kept : List (List (List β)),
    List.Forall₂ (Lived size zero) p.lives kept ∧
    handed size zero s.delivery.loop r ++ inFlight size zero s.delivery.loop r ++
      dataFrames size zero x.pending ++ dataFrames size zero x.queue.cells ++ data size zero p.held =
    kept.flatten ++ data size zero p.received

def Keeps (size : Nat) (zero : β) (x : Sender β) (p : Process β size) : Prop :=
  ∃ (kept : List (List (List β))) (later : List (List β)),
    List.Forall₂ (Lived size zero) p.lives kept ∧
    batchFrames size zero x.sent = kept.flatten ++ later ∧
    data size zero x.added ++ data size zero p.held = kept.flatten ++ data size zero p.received

structure Inv (size : Nat) (zero : β) (s : State β size) : Prop where
  linked : AllLinked size zero s.delivery
  keeps : ∀ r, Keeps size zero (s.delivery.senders r) (s.processes r)

def Careful (size : Nat) (zero : β) (s : State β size) : Act β size → Prop
  | .delivery a => Delivery.Careful size zero s.delivery a
  | .irq _ _ | .queue _ | .check _ | .stop _ _ => True

instance (s : State β size) (a : Act β size) : Decidable (Careful size zero s a) :=
  match a with
  | .delivery a => inferInstanceAs (Decidable (Delivery.Careful size zero s.delivery a))
  | .irq _ _ | .queue _ | .check _ | .stop _ _ => isTrue trivial

section Invariant
variable {conf : Conf} {s t : State β size} {x y : Sender β} {p q : Process β size}

theorem keepsProcess (keeps : Keeps size zero x p) (lives : q.lives = p.lives) (held : q.inHand = p.inHand)
    (received : q.received = p.received) : Keeps size zero x q := by
  rw [Keeps,Process.held,lives,held,received]
  exact keeps

theorem keepsSender (keeps : Keeps size zero x p) {more : List (Batch β)} (sent : y.sent = x.sent ++ more)
    (added : y.added = x.added) : Keeps size zero y p := by
  obtain ⟨kept,later,lived,sentIs,all⟩ := keeps
  refine ⟨kept,later ++ batchFrames size zero more,lived,?_,by rw [added]; exact all⟩
  rw [sent,batchFrames,List.flatMap_append,← List.append_assoc,← sentIs]
  rfl

theorem keepsOne {xs ys : Bool → Sender β} {ps : Bool → Process β size} {r : Bool}
    (keeps : ∀ q, Keeps size zero (xs q) (ps q)) (others : ∀ q, q ≠ r → ys q = xs q)
    (here : Keeps size zero (ys r) p) : ∀ q, Keeps size zero (ys q) (setAt ps r p q) := by
  intro q
  by_cases own : q = r
  · subst q
    rw [setAtSame]
    exact here
  · rw [setAtOther _ _ own,others q own]
    exact keeps q

omit [DecidableEq β] in
theorem senderGrows {b : SendQueue.Act β} {width : Int} (other : ∀ buf, b ≠ .addToQueue buf)
    (h : SendQueue.step width zero x b = some y) : (∃ more, y.sent = x.sent ++ more) ∧ y.added = x.added := by
  cases b with
  | addToQueue buf => exact absurd rfl (other buf)
  | connect fd =>
    obtain ⟨-,⟨-,rfl⟩ | ⟨-,⟨-,rfl⟩ | ⟨n,-,rfl⟩⟩⟩ := stepConnect h <;> exact ⟨⟨[],by simp⟩,rfl⟩
  | take =>
    obtain ⟨-,rfl⟩ := stepTake h
    refine ⟨⟨[],by simp⟩,?_⟩
    unfold takeBatch
    split <;> try rfl
    split <;> try rfl
    split <;> rfl
  | send sendedlen =>
    obtain ⟨-,rfl⟩ := stepSend h
    unfold afterSend
    split
    · exact ⟨⟨[],by simp⟩,rfl⟩
    · exact ⟨⟨_,rfl⟩,rfl⟩

omit [DecidableEq β] in
theorem seesGrows {width : Int}
    (sees : Parts.Sees (SendQueue.step width zero) (fun _ b => ∀ buf, b ≠ .addToQueue buf) x y) :
    (∃ more, y.sent = x.sent ++ more) ∧ y.added = x.added := by
  cases sees with
  | still => exact ⟨⟨[],by simp⟩,rfl⟩
  | moved b other h => exact senderGrows other h

theorem stopKeeps (pos : 0 < size) (framed : Framed size zero x) (keeps : Keeps size zero x p)
    (accepted : Nat) (pc : Pc) (log : List Event) : Keeps size zero (anew size zero x accepted)
      ⟨false,pc,none,[],p.lives ++ [⟨p.received,lost zero x p accepted⟩],log⟩ := by
  obtain ⟨kept,later,lived,sent,all⟩ := keeps
  have sentAnew : batchFrames size zero (anew size zero x accepted).sent = _ := anewSent pos
  have received : data size zero p.received =
      later ++ dataFrames size zero (cutOff x accepted) ++ lost zero x p accepted := by
    have inOrder : _ = data size zero x.added := framed.inOrder
    have parts : dataFrames size zero x.pending = dataFrames size zero (cutOff x accepted) ++ _ :=
      pendingParts pos
    rw [← inOrder,parts,sent] at all
    refine (List.append_right_inj kept.flatten).mp ?_
    rw [← all,lost]
    simp only [List.append_assoc]
  refine ⟨kept ++ [later ++ dataFrames size zero (cutOff x accepted)],[],?_,?_,?_⟩
  · exact List.rel_append (R := Lived size zero) lived (.cons received .nil)
  · rw [sentAnew,sent]
    simp [List.append_assoc]
  · have added : data size zero (anew size zero x accepted).added =
        batchFrames size zero (anew size zero x accepted).sent := batchFramesData _
    rw [added,sentAnew,sent]
    simp [Process.held,data,List.append_assoc]

theorem stepInv (pos : 0 < size) (same : packetSize conf = size) {a : Act β size} (inv : Inv size zero s)
    (careful : Careful size zero s a) (h : step conf zero s a = some t) : Inv size zero t := by
  cases a with
  | irq r packet =>
    obtain ⟨⟨-,free⟩,rfl⟩ := stepIrq h
    refine ⟨inv.linked,keepsOne inv.keeps (fun _ _ => rfl) ?_⟩
    obtain ⟨kept,later,lived,sent,all⟩ := inv.keeps r
    refine ⟨kept,later,lived,sent,?_⟩
    have none_held : (s.processes r).held = [] := by rw [Process.held,free]; rfl
    have now : data size zero ((s.processes r).received ++ [packet.val]) =
        data size zero (s.processes r).received ++ data size zero [packet.val] := List.filter_append _ _
    rw [none_held,data,data,List.filter_nil,List.append_nil] at all
    simp only [Process.held,Option.toList_some,List.map_singleton]
    rw [now,← List.append_assoc]
    exact congrArg (· ++ data size zero [packet.val]) all
  | queue r =>
    obtain ⟨-,packet,here,delivery,added,rfl⟩ := stepQueue h
    refine ⟨stepLinked pos same inv.linked (a := .addToQueue r packet) trivial added,?_⟩
    simp only [Delivery.step] at added
    obtain ⟨sender,moved,rfl⟩ := Option.map_eq_some_iff.mp added
    obtain rfl := stepAdd moved
    refine keepsOne inv.keeps (fun _ other => setAtOther _ _ other) ?_
    obtain ⟨kept,later,lived,sent,all⟩ := inv.keeps r
    simp only [setAtSame]
    refine ⟨kept,later,lived,sent,?_⟩
    have held : (s.processes r).held = [packet.val] := by rw [Process.held,here]; rfl
    have now : data size zero ((s.delivery.senders r).added ++ [packet.val]) =
        data size zero (s.delivery.senders r).added ++ data size zero [packet.val] := List.filter_append _ _
    rw [held,← now] at all
    rw [← all]
    simp [Process.held,data]
  | check r =>
    obtain ⟨p,moved,rfl⟩ := stepCheck h
    refine ⟨inv.linked,keepsOne inv.keeps (fun _ _ => rfl) ?_⟩
    obtain ⟨-,-,rfl⟩ | ⟨-,-,rfl⟩ | ⟨-,-,rfl⟩ | ⟨-,rfl⟩ := checkCases moved <;>
      exact keepsProcess (inv.keeps r) rfl rfl rfl
  | stop r accepted =>
    have stopped (pc : Pc) (log : List Event) : Inv size zero (stop zero s r accepted pc log) := by
      refine ⟨fun q => ?_,keepsOne inv.keeps (fun _ other => setAtOther _ _ other) ?_⟩
      · by_cases own : q = r
        · subst q
          simp only [stop,setAtSame]
          exact closedLinked pos (inv.linked r)
        · simp only [stop,setAtOther _ _ own]
          exact closedElsewhere (inv.linked r) (Ne.symm own) (inv.linked q)
      · simp only [stop,setAtSame]
        exact stopKeeps pos (inv.linked r).sender (inv.keeps r) accepted pc log
    obtain ⟨-,rfl⟩ | ⟨-,rfl⟩ := stepStop h <;> exact stopped _ _
  | delivery a =>
    obtain ⟨running,delivery,moved,rfl⟩ := stepDelivery h
    refine ⟨stepLinked pos same inv.linked careful moved,fun q => ?_⟩
    have sees := Rest.senderSees (r := q) (fun _ b => ∀ buf, b ≠ .addToQueue buf) moved
      (fun x b added buf is => by
        obtain ⟨packet,rfl⟩ := added buf is
        exact absurd running (by simp [runs]))
    obtain ⟨⟨more,sent⟩,added⟩ := seesGrows sees
    exact keepsSender (inv.keeps q) sent added

end Invariant

/-- In every run whose steps are careful, with any restarts, every packet that the radios gave is
accounted for. -/
theorem restartsAccounted (conf : Conf) (zero : β) (positive : 1 ≤ size) (same : packetSize conf = size)
    (acts : List (Act β size)) (careful : Runs.Meets (step conf zero) (Careful size zero) initial acts) :
    Runs.Always (step conf zero) (fun s => ∀ r, Accounted size zero s r) initial acts := by
  refine Runs.alwaysUnder (I := Inv size zero) (fun s inv r => ?_)
    (fun s a t inv careful h => stepInv positive same inv careful h) ?_ careful
  · obtain ⟨kept,later,lived,sent,all⟩ := inv.keeps r
    have inOrder : _ = data size zero (s.delivery.senders r).added := (inv.linked r).sender.inOrder
    refine ⟨kept,lived,?_⟩
    rw [(inv.linked r).balance,inOrder]
    exact all
  · refine ⟨fun r => initialLinked positive r,fun r => ⟨[],[],.nil,?_,?_⟩⟩
    · simp [initial,Delivery.initial,SendQueue.initial,batchFrames]
    · simp [initial,Delivery.initial,SendQueue.initial,Process.held,data]

def watched : Conf :=
  addConfig twoBytes (Cstr.ascii "nrf.check_working_interval") (Cstr.ascii "5")

def cutByRestart : List (Act UInt8 2) :=
  [.irq false fives,.queue false,.delivery (.connect false true),.delivery (.take false),
    .delivery (.send false 2)] ++ List.replicate 8 (.delivery .msgLoop) ++
  [.check false,.irq false sixes,.queue false,.delivery (.take false),.check false,.check false,
    .stop false 1,.delivery (.connect false true),.irq false fives,.queue false,
    .delivery (.take false),.delivery (.send false 2)] ++ List.replicate 4 (.delivery .msgLoop)

theorem restartsAccountedCut : ∃ s, Runs.exec (step watched 0) initial cutByRestart = some s ∧
    (s.processes false).lives.map Life.lost = [[[6,6]]] ∧ Accounted 2 (0 : UInt8) s false := by
  have seen : (Runs.exec (step watched 0) initial cutByRestart).map (fun s =>
      (s.processes false).lives.map Life.lost) = some [[[6,6]]] := by decide +kernel
  obtain ⟨s,run,lost⟩ := Option.map_eq_some_iff.mp seen
  have always := restartsAccounted watched 0 (by decide) (by decide) cutByRestart (by decide +kernel)
  exact ⟨s,run,lost,Runs.alwaysLast always run false⟩

section Checks
variable {conf : Conf} {s t : State β size} {a : Act β size} {p q : Process β size} {r : Bool}

def isReceived (e : Event) : Bool := e = .received

def isReset (e : Event) : Bool := e = .cleared ∨ e = .started

/-- A check finds the radio dead exactly if nothing was received since the flag was last clear. -/
def Judged (e : Event) (older : List Event) : Prop :=
  (e = .left → History.since isReceived isReset older = false) ∧
  (e = .passed → History.since isReceived isReset older = true)

structure Watched (p : Process β size) : Prop where
  flag : p.nrfIsWorking = History.since isReceived isReset p.log
  judged : History.Every Judged p.log
  stays : p.pc ≠ .exiting ∧ p.pc ≠ .exited

theorem processMoves (h : step conf zero s a = some t) (r : Bool) :
    t.processes r = s.processes r ∨
    (∃ packet, a = .irq r packet ∧ t.processes r = {s.processes r with
      nrfIsWorking := true
      inHand := some packet
      received := (s.processes r).received ++ [packet.val]
      log := .received :: (s.processes r).log}) ∨
    (a = .queue r ∧ t.processes r = {s.processes r with inHand := none}) ∨
    (a = .check r ∧ check conf (s.processes r) = some (t.processes r)) ∨
    (∃ accepted lives, a = .stop r accepted ∧ ((s.processes r).pc = .exiting ∨
      t.processes r = ⟨false,.test,none,[],lives,.started :: (s.processes r).log⟩)) := by
  cases a with
  | irq o packet =>
    obtain ⟨-,rfl⟩ := stepIrq h
    by_cases own : r = o
    · subst o
      exact .inr (.inl ⟨packet,rfl,setAtSame _ _ _⟩)
    · exact .inl (setAtOther _ _ own)
  | queue o =>
    obtain ⟨-,packet,-,delivery,-,rfl⟩ := stepQueue h
    by_cases own : r = o
    · subst o
      exact .inr (.inr (.inl ⟨rfl,setAtSame _ _ _⟩))
    · exact .inl (setAtOther _ _ own)
  | check o =>
    obtain ⟨p,moved,rfl⟩ := stepCheck h
    by_cases own : r = o
    · subst o
      exact .inr (.inr (.inr (.inl ⟨rfl,moved.trans (congrArg some (setAtSame _ _ _).symm)⟩)))
    · exact .inl (setAtOther _ _ own)
  | stop o accepted =>
    by_cases own : r = o
    · subst o
      obtain ⟨-,rfl⟩ | ⟨exits,-⟩ := stepStop h
      · exact .inr (.inr (.inr (.inr ⟨accepted,_,rfl,.inr (setAtSame _ _ _)⟩)))
      · exact .inr (.inr (.inr (.inr ⟨accepted,[],rfl,.inl exits⟩)))
    · obtain ⟨-,rfl⟩ | ⟨-,rfl⟩ := stepStop h <;> exact .inl (setAtOther _ _ own)
  | delivery a =>
    obtain ⟨-,delivery,-,rfl⟩ := stepDelivery h
    exact .inl rfl

omit [DecidableEq β] in
theorem checkWatched (positive : 1 ≤ checkInterval conf) (watched : Watched p) (h : check conf p = some q) :
    Watched q := by
  obtain ⟨flag,judged,stays⟩ := watched
  obtain ⟨-,invalid,-⟩ | ⟨-,working,rfl⟩ | ⟨-,silent,rfl⟩ | ⟨-,rfl⟩ := checkCases h
  · omega
  · exact ⟨by rw [History.sinceSkip rfl rfl]; exact flag,⟨⟨by simp,fun _ => flag ▸ working⟩,judged⟩,by simp⟩
  · exact ⟨by rw [History.sinceSkip rfl rfl]; exact flag,⟨⟨fun _ => flag ▸ silent,by simp⟩,judged⟩,by simp⟩
  · exact ⟨rfl,⟨⟨by simp,by simp⟩,judged⟩,by simp⟩

theorem stepWatched (positive : 1 ≤ checkInterval conf) (watched : Watched (s.processes r))
    (h : step conf zero s a = some t) : Watched (t.processes r) := by
  obtain same | ⟨packet,-,same⟩ | ⟨-,same⟩ | ⟨-,moved⟩ | ⟨accepted,lives,-,exits | same⟩ := processMoves h r
  · rw [same]; exact watched
  · rw [same]
    exact ⟨rfl,⟨⟨by simp,by simp⟩,watched.judged⟩,watched.stays⟩
  · rw [same]
    exact ⟨watched.flag,watched.judged,watched.stays⟩
  · exact checkWatched positive watched moved
  · exact absurd exits watched.stays.1
  · rw [same]
    exact ⟨rfl,⟨⟨by simp,by simp⟩,watched.judged⟩,by simp⟩

-- The accesses of cron_check_nrf_working until it returns, if nothing is received.
def accessesLeft (p : Process β size) : Nat :=
  match p.pc with
  | .test => if p.nrfIsWorking then 3 else 1
  | .clear => 2
  | .leaving | .exiting | .exited => 0

omit [DecidableEq β] in
theorem accessTaken (h : check conf p = some q) : accessesLeft q < accessesLeft p := by
  obtain ⟨here,-,rfl⟩ | ⟨here,working,rfl⟩ | ⟨here,silent,rfl⟩ | ⟨here,rfl⟩ := checkCases h
  · simp only [accessesLeft,here]
    split <;> decide
  · simp [accessesLeft,here,working]
  · simp [accessesLeft,here,silent]
  · simp [accessesLeft,here]

def Silent (r : Bool) (a : Act β size) : Prop :=
  (∀ packet, a ≠ .irq r packet) ∧ ∀ accepted, a ≠ .stop r accepted

theorem accessesKept (silent : Silent r a) (other : a ≠ .check r) (h : step conf zero s a = some t) :
    accessesLeft (t.processes r) = accessesLeft (s.processes r) := by
  obtain same | ⟨packet,is,-⟩ | ⟨-,same⟩ | ⟨is,-⟩ | ⟨accepted,lives,is,-⟩ := processMoves h r
  · rw [same]
  · exact absurd is (silent.1 packet)
  · rw [same]; rfl
  · exact absurd is other
  · exact absurd is (silent.2 accepted)

end Checks

/-- In every run, the self-check ends a process only after an interval in which nothing was
received, and after every such interval; where the radio gives nothing more, three accesses,
the test, the clearing and the test, end it. -/
theorem restartsWhenSilent (conf : Conf) (zero : β) (positive : 1 ≤ checkInterval conf) (r : Bool)
    (acts more : List (Act β size)) (s t : State β size)
    (before : Runs.exec (step conf zero) initial acts = some s)
    (run : Runs.exec (step conf zero) s more = some t) :
    History.Every Judged (t.processes r).log ∧
    ((∀ a ∈ more, Silent r a) → 3 ≤ more.countP (· = .check r) → (t.processes r).pc = .leaving) := by
  have start : Watched ((initial : State β size).processes r) := ⟨rfl,trivial,by simp [initial]⟩
  have here : Watched (s.processes r) :=
    Runs.invariant (I := fun s : State β size => Watched (s.processes r))
      (fun _ _ _ watched h => stepWatched positive watched h) start before
  have last : Watched (t.processes r) :=
    Runs.invariant (I := fun s : State β size => Watched (s.processes r))
      (fun _ _ _ watched h => stepWatched positive watched h) here run
  refine ⟨last.judged,fun silent enough => ?_⟩
  have quiet : Runs.Meets (step conf zero) (fun _ a => Silent r a) s more := Runs.meetsOf silent
  have down := Runs.countedDown (I := fun _ : State β size => True)
    (fun s => accessesLeft (s.processes r)) (fun a : Act β size => a = .check r) (fun _ _ _ _ _ _ => trivial)
    (fun s a t _ _ own h => by
      obtain rfl := of_decide_eq_true own
      obtain ⟨p,moved,rfl⟩ := stepCheck h
      simp only [setAtSame]
      exact accessTaken moved)
    (fun s a t _ silent other h =>
      Nat.le_of_eq (accessesKept silent (of_decide_eq_false other) h))
    trivial quiet run
  have most : accessesLeft (s.processes r) ≤ 3 := by
    unfold accessesLeft
    split <;> try split
    all_goals decide
  have none_left : accessesLeft (t.processes r) = 0 := by omega
  unfold accessesLeft at none_left
  split at none_left
  · split at none_left <;> contradiction
  · contradiction
  · assumption
  · exact absurd ‹_› last.stays.1
  · exact absurd ‹_› last.stays.2

def oneReceived : List (Act UInt8 2) := [.irq false fives]

def threeAccesses : List (Act UInt8 2) := [.check false,.queue false,.check false,.check false]

theorem restartsWhenSilentThree : ∃ s t, Runs.exec (step watched 0) initial oneReceived = some s ∧
    Runs.exec (step watched 0) s threeAccesses = some t ∧ (t.processes false).pc = .leaving := by
  have first : (Runs.exec (step watched 0) initial oneReceived).isSome = true := by decide +kernel
  have both : (Runs.exec (step watched 0) initial (oneReceived ++ threeAccesses)).isSome = true := by
    decide +kernel
  obtain ⟨s,before⟩ := Option.isSome_iff_exists.mp first
  rw [Runs.execAppend,before,Option.bind_some] at both
  obtain ⟨t,run⟩ := Option.isSome_iff_exists.mp both
  exact ⟨s,t,before,run,(restartsWhenSilent watched 0 (by decide) false oneReceived threeAccesses s t
    before run).2 (by simp [threeAccesses,Silent]) (by decide)⟩

end RfidStation.Restarts
