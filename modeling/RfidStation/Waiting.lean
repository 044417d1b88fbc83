import RfidStation.Station
import Mathlib.Algebra.Order.BigOperators.Group.List

/-! When msg_loop (server.c) waits: how far it gets by itself, and what has been delivered once
it cannot go on. -/
namespace RfidStation.Waiting
open Buffers SendQueue MsgLoop Delivery

section Turns
variable {β : Type} {size : Nat} {l m : Loop β}

inductive Moved (size : Nat) (l : Loop β) : Loop β → Prop where
  | stopped (going : l.pc ≠ .stopped)
      (why : ∃ i, erroneous l i = true ∨ l.pc = .read i ∧ l.ready i = true ∧ l.fds i = none) :
      Moved size l {l with pc := .stopped}
  | polled (here : l.pc = .poll)
      (pending : l.backlog ≠ [] ∨ readable l false = true ∨ readable l true = true) :
      Moved size l {l with listenReady := !l.backlog.isEmpty, ready := readable l, pc := .accept}
  | accepted (here : l.pc = .accept) (newfd : Nat) (rest : List Nat) (backlog : l.backlog = newfd :: rest) :
      Moved size l {l with
        backlog := rest, fds := setAt l.fds (l.conns newfd).role (some newfd), pc := .read false}
  | passed (here : l.pc = .accept) (quiet : l.listenReady = false) :
      Moved size l {l with pc := .read false}
  | skipped (i : Bool) (here : l.pc = .read i) (quiet : l.ready i = false) :
      Moved size l {l with pc := afterRead i}
  | read (i : Bool) (here : l.pc = .read i) (fd : Nat) (slot : l.fds i = some fd)
      (enough : size ≤ (l.conns fd).unread.length) :
      Moved size l {l with
        conns := setAt l.conns fd {l.conns fd with unread := (l.conns fd).unread.drop size}
        pc := afterRead i
        taken := setAt l.taken i (l.taken i ++ [(l.conns fd).unread.take size])}
  | closed (i : Bool) (here : l.pc = .read i) (fd : Nat) (slot : l.fds i = some fd)
      (ended : (l.conns fd).ended = true) :
      Moved size l {l with fds := setAt l.fds i none, pc := afterRead i}

theorem pollMoved (here : l.pc = .poll) (h : poll l = some m) : Moved size l m := by
  unfold poll at h
  split at h
  · rename_i bad
    cases Option.some.inj h
    refine .stopped (by simp [here]) ?_
    rcases Bool.or_eq_true_iff.mp bad with master | slave
    · exact ⟨false,.inl master⟩
    · exact ⟨true,.inl slave⟩
  · split at h <;> try contradiction
    rename_i pending
    cases Option.some.inj h
    refine .polled here ?_
    simpa [or_assoc] using pending

theorem acceptMoved (here : l.pc = .accept) (h : accept l = some m) : Moved size l m := by
  unfold accept at h
  split at h
  · split at h <;> try contradiction
    rename_i newfd rest backlog
    cases Option.some.inj h
    exact .accepted here newfd rest backlog
  · rename_i quiet
    cases Option.some.inj h
    exact .passed here (by simpa using quiet)

theorem readMoved {i : Bool} (here : l.pc = .read i) (h : readFd size l i = some m) : Moved size l m := by
  have going : l.pc ≠ .stopped := by simp [here]
  unfold readFd at h
  split at h
  · rename_i ready
    split at h
    · rename_i free
      cases Option.some.inj h
      exact .stopped going ⟨i,.inr ⟨here,ready,free⟩⟩
    · rename_i fd slot
      dsimp only at h
      split at h
      · rename_i failed
        cases Option.some.inj h
        exact .stopped going ⟨i,.inl (by rw [erroneous,slot]; exact failed)⟩
      · split at h
        · rename_i enough
          cases Option.some.inj h
          exact .read i here fd slot enough
        · split at h <;> try contradiction
          rename_i ended
          cases Option.some.inj h
          exact .closed i here fd slot ended
  · rename_i quiet
    cases Option.some.inj h
    exact .skipped i here (by simpa using quiet)

theorem stepMoved (h : MsgLoop.step size l = some m) : Moved size l m := by
  unfold MsgLoop.step at h
  split at h
  · exact pollMoved ‹_› h
  · exact acceptMoved ‹_› h
  · exact readMoved ‹_› h
  · contradiction

/-! How many steps it can take by itself: four for a turn, and each turn reads a packet, takes a
connection or closes one. -/

def packets (size : Nat) (l : Loop β) (fd : Nat) : Nat := (l.conns fd).unread.length / size

def slotWork (size : Nat) (l : Loop β) (i : Bool) : Nat :=
  match l.fds i with
  | some fd => packets size l fd + 1
  | none => 0

def work (size : Nat) (l : Loop β) : Nat :=
  slotWork size l false + slotWork size l true + (l.backlog.map (fun fd => packets size l fd + 2)).sum

def due (l : Loop β) : Bool :=
  match l.pc with
  | .poll | .stopped => true
  | .accept => l.listenReady || l.ready false || l.ready true
  | .read false => l.ready false || l.ready true
  | .read true => l.ready true

def turn : MsgLoop.Pc → Nat
  | .poll => 4
  | .accept => 3
  | .read false => 2
  | .read true => 1
  | .stopped => 0

def phase (l : Loop β) : Nat := turn l.pc + if due l then 0 else 4

def stepsLeft (size : Nat) (l : Loop β) : Nat := 5 * work size l + phase l

theorem fewerPackets (pos : 0 < size) {fd : Nat} (enough : size ≤ (l.conns fd).unread.length) :
    ((l.conns fd).unread.drop size).length / size + 1 = packets size l fd := by
  rw [packets,List.length_drop,← Nat.add_div_right _ pos,Nat.sub_add_cancel enough]

theorem slotSame (packs : ∀ fd, packets size m fd ≤ packets size l fd) {i : Bool}
    (slot : m.fds i = l.fds i) : slotWork size m i ≤ slotWork size l i := by
  rw [slotWork,slotWork,slot]
  cases l.fds i with
  | none => exact Nat.le_refl _
  | some fd => exact Nat.succ_le_succ (packs fd)

theorem workLess (packs : ∀ fd, packets size m fd ≤ packets size l fd) (backlog : m.backlog = l.backlog)
    (i : Bool) (other : m.fds (!i) = l.fds (!i)) (mine : slotWork size m i < slotWork size l i) :
    work size m < work size l := by
  have slot := slotSame packs other
  have waiting : (l.backlog.map (fun fd => packets size m fd + 2)).sum ≤
      (l.backlog.map (fun fd => packets size l fd + 2)).sum :=
    List.sum_le_sum (fun fd _ => Nat.add_le_add_right (packs fd) 2)
  rw [work,work,backlog]
  cases i <;> simp only [Bool.not_true,Bool.not_false] at slot <;> omega

theorem acceptWork {newfd : Nat} {rest : List Nat} (backlog : l.backlog = newfd :: rest) :
    work size {l with backlog := rest, fds := setAt l.fds (l.conns newfd).role (some newfd), pc := .read false} <
      work size l := by
  rw [work,work,backlog,List.map_cons,List.sum_cons]
  cases (l.conns newfd).role <;> simp [slotWork,setAt,packets] <;> omega

theorem readWork (pos : 0 < size) {i : Bool} {fd : Nat} (slot : l.fds i = some fd)
    (enough : size ≤ (l.conns fd).unread.length)
    (conns : m.conns = setAt l.conns fd {l.conns fd with unread := (l.conns fd).unread.drop size})
    (fds : m.fds = l.fds) (backlog : m.backlog = l.backlog) : work size m < work size l := by
  have here : packets size m fd + 1 = packets size l fd := by
    rw [packets,conns,setAtSame]
    exact fewerPackets pos enough
  refine workLess (fun other => ?_) backlog i (by rw [fds]) ?_
  · by_cases same : other = fd
    · subst other
      exact Nat.le_of_succ_le (Nat.le_of_eq here)
    · rw [packets,packets,conns,setAtOther _ _ same]
  · rw [slotWork,slotWork,fds,slot]
    show packets size m fd + 1 < packets size l fd + 1
    rw [here]
    exact Nat.lt_succ_self _

theorem closeWork {i : Bool} {fd : Nat} (slot : l.fds i = some fd) :
    work size {l with fds := setAt l.fds i none, pc := afterRead i} < work size l := by
  refine workLess (fun _ => Nat.le_refl _) rfl i (setAtOther _ _ (by cases i <;> decide)) ?_
  simp only [slotWork,slot,setAtSame]
  exact Nat.succ_pos _

theorem turnPos (going : l.pc ≠ .stopped) : 0 < turn l.pc := by
  cases here : l.pc with
  | read i => cases i <;> decide
  | poll | accept => decide
  | stopped => contradiction

theorem phaseAfter (i : Bool) (here : m.pc = afterRead i) : phase m ≤ 5 := by
  cases i with
  | false =>
    have next : m.pc = .read true := here
    rw [phase,next]
    dsimp only [turn]
    split <;> decide
  | true =>
    have next : m.pc = .poll := here
    rw [phase,due,next]
    exact (by decide : 4 + 0 ≤ 5)

theorem stepsOn (same : work size m = work size l) (less : phase m < phase l) :
    stepsLeft size m < stepsLeft size l := by
  rw [stepsLeft,stepsLeft,same]
  exact Nat.add_lt_add_left less _

theorem stepsWorked (less : work size m < work size l) (later : phase m < 5 + turn l.pc) :
    stepsLeft size m < stepsLeft size l := by
  have : turn l.pc ≤ phase l := Nat.le_add_right _ _
  rw [stepsLeft,stepsLeft]
  omega

theorem stepsDown (pos : 0 < size) (h : MsgLoop.step size l = some m) :
    stepsLeft size m < stepsLeft size l := by
  cases stepMoved h with
  | stopped going why => exact stepsOn rfl (Nat.lt_of_lt_of_le (turnPos going) (Nat.le_add_right _ _))
  | polled here pending =>
    refine stepsOn rfl ?_
    have waits : due {l with listenReady := !l.backlog.isEmpty, ready := readable l, pc := .accept} = true := by
      simpa [due,or_assoc] using pending
    rw [phase,waits,phase,here]
    exact Nat.lt_of_lt_of_le (by decide : 3 < 4) (Nat.le_add_right _ _)
  | accepted here newfd rest backlog =>
    refine stepsWorked (acceptWork backlog) ?_
    rw [here,phase]
    dsimp only [turn]
    split <;> decide
  | passed here quiet =>
    refine stepsOn rfl ?_
    simp only [phase,turn,due,here,quiet,Bool.false_or]
    exact Nat.add_lt_add_right (by decide) _
  | skipped i here quiet =>
    refine stepsOn rfl ?_
    cases i <;> simp [phase,turn,due,here,quiet,afterRead]
  | read i here fd slot enough =>
    refine stepsWorked (readWork pos slot enough rfl rfl rfl) ?_
    exact Nat.lt_of_le_of_lt (phaseAfter i rfl) (Nat.lt_add_of_pos_right (turnPos (by simp [here])))
  | closed i here fd slot ended =>
    refine stepsWorked (closeWork slot) ?_
    exact Nat.lt_of_le_of_lt (phaseAfter i rfl) (Nat.lt_add_of_pos_right (turnPos (by simp [here])))

end Turns

section Loop
variable {β : Type} {size : Nat} {l m : Loop β}

def Ahead (l : Loop β) (i : Bool) : Prop :=
  l.pc = .accept ∨ l.pc = .read false ∨ l.pc = .read true ∧ i = true

structure Going (l : Loop β) : Prop where
  going : l.pc ≠ .stopped
  alive : ∀ fd, (l.conns fd).failed = false
  listening : l.pc = .accept → l.listenReady = true → l.backlog ≠ []
  slots : ∀ i, Ahead l i → l.ready i = true → l.fds i ≠ none

theorem initialGoing : Going (MsgLoop.initial : Loop β) := by
  constructor <;> simp [MsgLoop.initial,Ahead]

theorem aheadAfter {i j : Bool} (here : l.pc = .read i) (later : m.pc = afterRead i) (ahead : Ahead m j) :
    Ahead l j ∧ j ≠ i := by
  cases i with
  | false =>
    have next : m.pc = .read true := later
    refine ⟨.inr (.inl here),?_⟩
    rcases ahead with other | other | ⟨-,slave⟩
    · simp [next] at other
    · simp [next] at other
    · simp [slave]
  | true =>
    have next : m.pc = .poll := later
    simp [Ahead,next] at ahead

theorem readableSlot {i : Bool} (h : readable l i = true) : l.fds i ≠ none := by
  intro free
  simp [readable,free] at h

theorem stepGoing (g : Going l) (h : MsgLoop.step size l = some m) : Going m := by
  cases stepMoved h with
  | stopped going why =>
    obtain ⟨i,bad | ⟨here,ready,free⟩⟩ := why
    · unfold erroneous at bad
      split at bad
      · rw [g.alive] at bad; contradiction
      · contradiction
    · refine absurd free (g.slots i ?_ ready)
      cases i with
      | false => exact .inr (.inl here)
      | true => exact .inr (.inr ⟨here,rfl⟩)
  | polled here pending =>
    exact ⟨by simp,g.alive,fun _ ready => by simpa using ready,fun i _ ready => readableSlot ready⟩
  | accepted here newfd rest backlog =>
    refine ⟨by simp,g.alive,by simp,fun i _ ready => ?_⟩
    by_cases own : i = (l.conns newfd).role
    · simp [own]
    · simp only [setAtOther _ _ own]
      exact g.slots i (.inl here) ready
  | passed here quiet =>
    exact ⟨by simp,g.alive,by simp,fun i _ ready => g.slots i (.inl here) ready⟩
  | skipped i here quiet =>
    refine ⟨by cases i <;> simp [afterRead],g.alive,by cases i <;> simp [afterRead],
      fun j ahead ready => ?_⟩
    exact g.slots j (aheadAfter here rfl ahead).1 ready
  | read i here fd slot enough =>
    refine ⟨by cases i <;> simp [afterRead],fun other => ?_,by cases i <;> simp [afterRead],
      fun j ahead ready => g.slots j (aheadAfter here rfl ahead).1 ready⟩
    by_cases same : other = fd
    · subst other
      simpa using g.alive fd
    · simpa [setAtOther _ _ same] using g.alive other
  | closed i here fd slot ended =>
    refine ⟨by cases i <;> simp [afterRead],g.alive,by cases i <;> simp [afterRead],
      fun j ahead ready => ?_⟩
    obtain ⟨before,other⟩ := aheadAfter here rfl ahead
    simp only [setAtOther _ _ other]
    exact g.slots j before ready

theorem connectGoing (g : Going l) (role : Bool) : Going (connect l role) := by
  refine ⟨g.going,fun fd => ?_,fun _ _ => by simp [connect],g.slots⟩
  by_cases same : fd = l.opened
  · simp [connect,same]
  · simpa [connect,setAtOther _ _ same] using g.alive fd

theorem putOnGoing (g : Going l) (fd : Nat) (cells : List β) (short : Bool) :
    Going (putOn l fd cells short) := by
  have alive (other : Nat) : ((putOn l fd cells short).conns other).failed = false := by
    by_cases same : other = fd
    · rw [same,putOnConn]
      exact g.alive fd
    · rw [putOnOther _ _ _ same]
      exact g.alive other
  cases short <;> exact ⟨g.going,alive,g.listening,g.slots⟩

end Loop

/-! A connection that its sender does not use any more has ended. -/

section Senders
variable {β : Type} {size : Nat} {zero : β} {x y : Sender β} {l m : Loop β} {r role : Bool}

structure Closing (x : Sender β) (l : Loop β) (r : Bool) : Prop where
  ended : ∀ fd ∈ line l r, x.sockfd ≠ some fd → (l.conns fd).ended = true
  full : x.unsent → x.sendbuf.cells ≠ []

theorem initialClosing (r : Bool) : Closing (SendQueue.initial : Sender β) MsgLoop.initial r :=
  ⟨by simp [line,MsgLoop.initial],by simp [SendQueue.initial,Sender.unsent]⟩

theorem lineMember {fd : Nat} :
    fd ∈ line l r ↔ l.fds r = some fd ∨ fd ∈ l.backlog ∧ (l.conns fd).role = r := by
  simp [line,Option.mem_toList,eq_comm]

theorem closingElsewhere (closing : Closing x l r) (lines : ∀ fd ∈ line m r, fd ∈ line l r)
    (conns : ∀ fd ∈ line l r, (m.conns fd).ended = (l.conns fd).ended) : Closing x m r :=
  ⟨fun fd mem other => (conns fd (lines fd mem)).trans (closing.ended fd (lines fd mem) other),
    closing.full⟩

theorem loopClosing (closing : Closing x l r) (h : MsgLoop.step size l = some m) : Closing x m r := by
  cases stepMoved h with
  | accepted here newfd rest backlog =>
    refine closingElsewhere closing (fun fd mem => ?_) (fun _ _ => rfl)
    obtain slot | ⟨mem,role⟩ := lineMember.mp mem
    · by_cases own : r = (l.conns newfd).role
      · subst r
        simp only [setAtSame,Option.some.injEq] at slot
        exact lineMember.mpr (.inr ⟨by simp [backlog,slot],by rw [slot]⟩)
      · simp only [setAtOther _ _ own] at slot
        exact lineMember.mpr (.inl slot)
    · exact lineMember.mpr (.inr ⟨by rw [backlog]; exact List.mem_cons_of_mem _ mem,role⟩)
  | read i here fd slot enough =>
    refine closingElsewhere closing (fun other mem => ?_) (fun other _ => ?_)
    · obtain own | ⟨queued,role⟩ := lineMember.mp mem
      · exact lineMember.mpr (.inl own)
      · refine lineMember.mpr (.inr ⟨queued,?_⟩)
        by_cases same : other = fd
        · subst other; simpa using role
        · simpa [setAtOther _ _ same] using role
    · by_cases same : other = fd
      · subst other; simp
      · simp [setAtOther _ _ same]
  | closed i here fd slot ended =>
    refine closingElsewhere closing (fun other mem => ?_) (fun _ _ => rfl)
    obtain own | queued := lineMember.mp mem
    · by_cases same : r = i
      · simp [same] at own
      · simp only [setAtOther _ _ same] at own
        exact lineMember.mpr (.inl own)
    · exact lineMember.mpr (.inr queued)
  | stopped _ _ | polled _ _ | passed _ _ | skipped _ _ _ =>
    exact closingElsewhere closing (fun _ mem => mem) (fun _ _ => rfl)

theorem connectClosing (owned : ∀ fd ∈ line l r, fd < l.opened) (known : ∀ fd ∈ l.backlog, fd < l.opened)
    (closing : Closing x l r) (free : x.sockfd = none) (sockfd : y.sockfd = some l.opened)
    (sendbuf : y.sendbuf = x.sendbuf) (unsent : y.unsent → x.unsent) : Closing y (connect l r) r := by
  refine ⟨fun fd mem other => ?_,fun pending => by rw [sendbuf]; exact closing.full (unsent pending)⟩
  rw [lineConnect r known,if_pos rfl] at mem
  rcases List.mem_append.mp mem with old | new
  · simp only [connect,setAtOther l.conns _ (Nat.ne_of_lt (owned fd old))]
    exact closing.ended fd old (by simp [free])
  · rw [List.mem_singleton.mp new,sockfd] at other
    contradiction

theorem connectClosingElsewhere (owned : ∀ fd ∈ line l r, fd < l.opened) (other : role ≠ r)
    (known : ∀ fd ∈ l.backlog, fd < l.opened) (closing : Closing x l r) : Closing x (connect l role) r := by
  have lines := lineConnect (r := r) role known
  rw [if_neg other,List.append_nil] at lines
  refine closingElsewhere closing (fun fd mem => lines ▸ mem) (fun fd mem => ?_)
  simp only [connect,setAtOther l.conns _ (Nat.ne_of_lt (owned fd mem))]

theorem takeClosing (pos : 0 < size) (closing : Closing x l r) :
    Closing (takeBatch size zero x) l r := by
  refine ⟨fun fd mem other => closing.ended fd mem (by rwa [takeSockfd] at other),?_⟩
  unfold takeBatch
  split
  · split
    · rw [if_neg (by omega)]
      intro _ empty
      have beat : (heartbeat size zero).length = size := List.length_replicate
      have none : heartbeat size zero = [] := by simpa using empty
      rw [none] at beat
      exact absurd beat.symm (Nat.ne_of_gt pos)
    · rename_i queued
      intro _ empty
      exact queued (List.length_eq_zero_iff.mpr empty)
  · rename_i failed
    intro _
    exact closing.full (.inr (by simpa using failed))

theorem sendClosing (closing : Closing x l r) (here : x.pc = .send) {fd : Nat} (using_it : x.sockfd = some fd)
    (cells : List β) (sendedlen : Int) : Closing (afterSend x sendedlen)
      (putOn l fd cells (sendedlen < x.sendbuf.cells.length)) r := by
  constructor
  · intro other mem unused
    rw [linePutOn] at mem
    rw [afterSendSockfd using_it] at unused
    by_cases same : other = fd
    · subst other
      rw [putOnConn]
      by_cases short : sendedlen < x.sendbuf.cells.length
      · simp [short]
      · simp [short] at unused
    · rw [putOnOther _ _ _ same]
      exact closing.ended other mem (by rw [using_it]; simpa [eq_comm] using same)
  · unfold afterSend
    split
    · exact fun _ => closing.full (.inl here)
    · simp [Sender.unsent]

theorem sendClosingElsewhere (closing : Closing x l r) {fd : Nat} (others : fd ∉ line l r)
    (cells : List β) (short : Bool) : Closing x (putOn l fd cells short) r := by
  refine closingElsewhere closing (fun other mem => by rwa [linePutOn] at mem) (fun other mem => ?_)
  have different : other ≠ fd := fun same => others (same ▸ mem)
  rw [putOnOther _ _ _ different]

end Senders

section Runs
variable {β : Type} [DecidableEq β] {size : Nat} {zero : β} {conf : Config.Conf} {s t : System β}
  {a : Act β size}

structure Awake (size : Nat) (zero : β) (s : System β) : Prop where
  linked : AllLinked size zero s
  loop : Going s.loop
  closing : ∀ r, Closing (s.senders r) s.loop r

theorem initialAwake (pos : 0 < size) : Awake size zero Delivery.initial :=
  ⟨initialLinked pos,initialGoing,initialClosing⟩

theorem stepAwake (pos : 0 < size) (same : packetSize conf = size) (awake : Awake size zero s)
    (careful : Careful size zero s a) (h : Delivery.step conf zero s a = some t) : Awake size zero t := by
  have linked := stepLinked pos same awake.linked careful h
  cases a with
  | addToQueue r packet =>
    simp only [Delivery.step] at h
    obtain ⟨sender,moved,rfl⟩ := Option.map_eq_some_iff.mp h
    obtain rfl := stepAdd moved
    refine ⟨linked,awake.loop,fun q => ?_⟩
    by_cases own : q = r
    · subst q
      simp only [setAtSame]
      exact ⟨(awake.closing r).ended,(awake.closing r).full⟩
    · simp only [setAtOther _ _ own]
      exact awake.closing q
  | connect r ok =>
    obtain ⟨sender,moved,rfl⟩ := Option.map_eq_some_iff.mp h
    obtain ⟨here,⟨busy,-⟩ | ⟨free,⟨failed,rfl⟩ | ⟨n,opened,rfl⟩⟩⟩ := stepConnect moved
    · simp [(awake.linked r).sender.connected.mpr here] at busy
    · have failed : ok = false := by simpa using failed
      subst ok
      refine ⟨linked,awake.loop,fun q => ?_⟩
      by_cases own : q = r
      · subst q; simp only [setAtSame]; exact awake.closing r
      · simp only [setAtOther _ _ own]; exact awake.closing q
    · obtain ⟨ok,number⟩ := Option.ite_none_right_eq_some.mp opened
      obtain rfl := Option.some.inj number
      subst ok
      refine ⟨linked,connectGoing awake.loop r,fun q => ?_⟩
      by_cases own : q = r
      · subst q
        simp only [setAtSame,if_true]
        refine connectClosing (fun fd mem => ((awake.linked r).known fd mem).1) (backlogKnown awake.linked)
          (awake.closing r) free rfl rfl ?_
        exact fun unsent => .inr (unsent.resolve_left (by simp))
      · simp only [setAtOther _ _ own,if_true]
        exact connectClosingElsewhere (fun fd mem => ((awake.linked q).known fd mem).1) (Ne.symm own)
          (backlogKnown awake.linked)
          (awake.closing q)
  | take r =>
    simp only [Delivery.step,same] at h
    obtain ⟨sender,moved,rfl⟩ := Option.map_eq_some_iff.mp h
    obtain ⟨-,rfl⟩ := stepTake moved
    refine ⟨linked,awake.loop,fun q => ?_⟩
    by_cases own : q = r
    · subst q
      simp only [setAtSame]
      exact takeClosing pos (awake.closing r)
    · simp only [setAtOther _ _ own]
      exact awake.closing q
  | send r sendedlen =>
    obtain ⟨sender,moved,rfl⟩ := Option.map_eq_some_iff.mp h
    obtain ⟨here,rfl⟩ := stepSend moved
    obtain ⟨fd,using_it⟩ : ∃ fd, (s.senders r).sockfd = some fd := by
      refine Option.ne_none_iff_exists'.mp (fun free => ?_)
      have := (awake.linked r).sender.connected.mp free
      simp [here.1] at this
    obtain ⟨older,ends,-⟩ := (awake.linked r).current fd using_it
    have role := ((awake.linked r).known fd (by rw [ends]; simp)).2
    refine ⟨linked,?_,fun q => ?_⟩
    · simp only [sendOn,using_it]
      exact putOnGoing awake.loop _ _ _
    · simp only [sendOn,using_it]
      by_cases own : q = r
      · subst q
        simp only [setAtSame]
        exact sendClosing (awake.closing r) here.1 using_it _ _
      · simp only [setAtOther _ _ own]
        refine sendClosingElsewhere (awake.closing q) (fun mem => own ?_) _ _
        rw [← role,((awake.linked q).known fd mem).2]
  | msgLoop =>
    obtain ⟨loop,moved,rfl⟩ := Option.map_eq_some_iff.mp h
    exact ⟨linked,stepGoing awake.loop moved,fun r => loopClosing (awake.closing r) moved⟩

structure InRecvn (s : System β) (i : Bool) (fd : Nat) : Prop where
  here : s.loop.pc = .read i
  ready : s.loop.ready i = true
  slot : s.loop.fds i = some fd
  connected : (s.senders i).sockfd = some fd
  nothing : (s.loop.conns fd).unread = []

omit [DecidableEq β] in
theorem pollWaits (h : poll s.loop = none) :
    s.loop.backlog = [] ∧ ∀ i, readable s.loop i = false := by
  unfold poll at h
  split at h
  · contradiction
  · split at h
    · contradiction
    · rename_i quiet
      simp only [Bool.or_eq_true,not_or,Bool.not_eq_true,Bool.not_eq_false',List.isEmpty_iff] at quiet
      exact ⟨quiet.1.1,fun i => by cases i; exact quiet.1.2; exact quiet.2⟩

theorem pollSettled (pos : 0 < size) (h : poll s.loop = none) (r : Bool) :
    inFlight size zero s.loop r = [] := by
  obtain ⟨backlog,quiet⟩ := pollWaits h
  have lines : line s.loop r = (s.loop.fds r).toList := by rw [line,backlog]; simp
  rw [inFlight,lines,List.flatMap_eq_nil_iff]
  intro fd slot
  have unread := quiet r
  simp only [readable,Option.mem_toList.mp slot,Bool.or_eq_false_iff,Bool.not_eq_false',
    List.isEmpty_iff] at unread
  rw [unread.1]
  exact dataFramesShort pos

theorem readWaits (awake : Awake size zero s) {i : Bool} (here : s.loop.pc = .read i)
    (h : readFd size s.loop i = none) :
    ∃ fd, InRecvn s i fd ∧ inFlight size zero s.loop i = [] := by
  unfold readFd at h
  split at h <;> try contradiction
  rename_i ready
  split at h <;> try contradiction
  rename_i fd slot
  dsimp only at h
  split at h <;> try contradiction
  split at h <;> try contradiction
  rename_i less
  split at h <;> try contradiction
  rename_i alive
  have front : line s.loop i = fd :: s.loop.backlog.filter (fun fd => (s.loop.conns fd).role = i) := by
    rw [line,slot]; rfl
  have mem : fd ∈ line s.loop i := by rw [front]; exact List.mem_cons_self
  have connected : (s.senders i).sockfd = some fd := by
    by_contra unused
    exact alive ((awake.closing i).ended fd mem unused)
  obtain ⟨older,ends,-,whole⟩ := (awake.linked i).current fd connected
  have nothing : (s.loop.conns fd).unread = [] := by
    rcases Nat.eq_zero_or_pos (s.loop.conns fd).unread.length with zero | some_cells
    · exact List.length_eq_zero_iff.mp zero
    · exact absurd (Nat.le_of_dvd some_cells whole) less
  have only : line s.loop i = [fd] := by
    cases older with
    | nil => exact ends
    | cons first older =>
      have same : first = fd := by
        rw [front] at ends
        exact (List.cons.inj ends).1.symm
      have distinct := (awake.linked i).distinct
      rw [ends,same,List.cons_append] at distinct
      exact absurd (by simp) (List.nodup_cons.mp distinct).1
  refine ⟨fd,⟨here,ready,slot,connected,nothing⟩,?_⟩
  rw [inFlight,only,List.flatMap_singleton,nothing]
  exact dataFramesShort (Nat.lt_of_le_of_lt (Nat.zero_le _) (Nat.lt_of_not_le less))

theorem waits (pos : 0 < size) (awake : Awake size zero s) (h : MsgLoop.step size s.loop = none) :
    (s.loop.pc = .poll ∧ ∀ r, inFlight size zero s.loop r = []) ∨
    ∃ i fd, InRecvn s i fd ∧ inFlight size zero s.loop i = [] := by
  unfold MsgLoop.step at h
  split at h
  · exact .inl ⟨‹_›,pollSettled pos h⟩
  · rename_i here
    unfold accept at h
    split at h <;> try contradiction
    rename_i ready
    split at h <;> try contradiction
    rename_i empty
    exact absurd empty (awake.loop.listening here ready)
  · exact .inr ⟨_,readWaits awake ‹_› h⟩
  · exact absurd ‹_› awake.loop.going

theorem sendWakes (awake : Awake size zero s) {i : Bool} {fd : Nat} (waiting : InRecvn s i fd) {sendedlen : Int}
    (whole : (s.senders i).sendbuf.cells.length ≤ sendedlen)
    (h : Delivery.step conf zero s (.send i sendedlen : Delivery.Act β size) = some t) :
    MsgLoop.step size t.loop ≠ none := by
  obtain ⟨sender,moved,rfl⟩ := Option.map_eq_some_iff.mp h
  obtain ⟨here,rfl⟩ := stepSend moved
  have full := (awake.closing i).full (.inl here.1)
  have framed := (awake.linked i).sender.pending
  simp only [Sender.pending,Sender.unsent,here.1,true_or,if_true] at framed
  have enough : size ≤ (s.senders i).sendbuf.cells.length :=
    Nat.le_of_dvd (List.length_pos_iff.mpr full) framed
  have unread : ((sendOn s i sendedlen).conns fd).unread = (s.senders i).sendbuf.cells := by
    rw [sendOn,waiting.connected]
    dsimp only
    rw [putOnConn,waiting.nothing,List.nil_append,acceptedFull (by omega)]
  have alive : ((sendOn s i sendedlen).conns fd).failed = false := by
    rw [sendOn,waiting.connected]
    exact (putOnGoing awake.loop _ _ _).alive fd
  have same : (sendOn s i sendedlen).pc = .read i ∧ (sendOn s i sendedlen).ready i = true ∧
      (sendOn s i sendedlen).fds i = some fd := by
    rw [sendOn,waiting.connected]
    dsimp only [putOn]
    split <;> exact ⟨waiting.here,waiting.ready,waiting.slot⟩
  rw [MsgLoop.step,same.1]
  dsimp only
  rw [readFd,if_pos same.2.1,same.2.2]
  dsimp only
  rw [alive,if_neg (by decide),if_pos (by rw [unread]; exact enough)]
  exact Option.some_ne_none _

/-- In every run whose steps are careful msg_loop does not return, and by itself it takes no more
than `stepsLeft` steps. Where it waits, every packet of the batches sent has been handed over;
or it waits in recvn for one receiver, everything of that one has been handed over, and its next
batch lets the loop go on. -/
theorem settles (conf : Config.Conf) (zero : β) (positive : 1 ≤ size) (same : packetSize conf = size)
    (acts : List (Delivery.Act β size))
    (careful : Runs.Meets (Delivery.step conf zero) (Careful size zero) Delivery.initial acts)
    (s : System β) (run : Runs.exec (Delivery.step conf zero) Delivery.initial acts = some s) :
    s.loop.pc ≠ .stopped ∧
    (∀ n t, Runs.exec (Delivery.step conf zero) s
      (List.replicate n (.msgLoop : Delivery.Act β size)) = some t → n ≤ stepsLeft size s.loop) ∧
    (Delivery.step conf zero s (.msgLoop : Delivery.Act β size) = none →
      (∀ r, handed size zero s.loop r = batchFrames size zero (s.senders r).sent) ∨
      ∃ i fd, InRecvn s i fd ∧ handed size zero s.loop i = batchFrames size zero (s.senders i).sent ∧
        ∀ (sendedlen : Int) t, (s.senders i).sendbuf.cells.length ≤ sendedlen →
          Delivery.step conf zero s (.send i sendedlen : Delivery.Act β size) = some t →
          Delivery.step conf zero t (.msgLoop : Delivery.Act β size) ≠ none) := by
  have awake : Awake size zero s := Runs.invariantUnder
    (fun _ _ _ awake careful h => stepAwake positive same awake careful h) (initialAwake positive) careful run
  have all (r) (none_left : inFlight size zero s.loop r = []) :
      handed size zero s.loop r = batchFrames size zero (s.senders r).sent := by
    rw [← (awake.linked r).balance,none_left,List.append_nil]
  refine ⟨awake.loop.going,fun n t alone => ?_,fun stuck => ?_⟩
  · have own : Runs.Meets (Delivery.step conf zero) (fun _ a => a = .msgLoop) s
        (List.replicate n (.msgLoop : Delivery.Act β size)) :=
      Runs.meetsOf (fun a mem => List.eq_of_mem_replicate mem)
    have counted := Runs.countedDown (I := fun _ => True) (fun s : System β => stepsLeft size s.loop)
      (fun _ => true) (fun _ _ _ _ _ _ => trivial) (fun s a t _ own _ h => by
        subst a
        obtain ⟨loop,moved,rfl⟩ := Option.map_eq_some_iff.mp h
        exact stepsDown positive moved) (fun _ _ _ _ _ other _ => by simp at other) trivial own alone
    simp at counted
    omega
  · rcases waits positive awake (Option.map_eq_none_iff.mp stuck) with
      ⟨-,none_left⟩ | ⟨i,fd,waiting,none_left⟩
    · exact .inl (fun r => all r (none_left r))
    · refine .inr ⟨i,fd,waiting,all i none_left,fun sendedlen t whole h stuck => ?_⟩
      exact sendWakes awake waiting whole h (Option.map_eq_none_iff.mp stuck)

end Runs

/- The slave's connection is cut and a new one replaces it in the round in which poll reported
the old one: the loop waits for the slave, and a packet of the master stays on its connection. -/
def slaveSilent : List (Delivery.Act UInt8 2) :=
  [.connect true true,.msgLoop,.msgLoop,.msgLoop,.msgLoop,.take true,.send true (-1),
    .connect true true,.msgLoop,.addToQueue false fives,.connect false true,.take false,.send false 2,
    .msgLoop,.msgLoop]

theorem settlesSlaveSilent : ∃ s,
    Runs.exec (Delivery.step twoBytes 0) Delivery.initial slaveSilent = some s ∧
    inFlight 2 (0 : UInt8) s.loop false = [[5,5]] ∧
    Delivery.step twoBytes 0 s (.msgLoop : Delivery.Act UInt8 2) = none ∧ ∃ i fd, InRecvn s i fd := by
  have seen : (Runs.exec (Delivery.step twoBytes 0) Delivery.initial slaveSilent).map (fun s =>
      (inFlight 2 (0 : UInt8) s.loop false,handed 2 0 s.loop false,batchFrames 2 0 (s.senders false).sent,
        (Delivery.step twoBytes 0 s (.msgLoop : Delivery.Act UInt8 2)).isNone)) =
      some ([[5,5]],[],[[5,5]],true) := by decide +kernel
  obtain ⟨s,run,same⟩ := Option.map_eq_some_iff.mp seen
  obtain ⟨flight,same⟩ := Prod.mk.inj same
  obtain ⟨none_handed,same⟩ := Prod.mk.inj same
  obtain ⟨sent,stuck⟩ := Prod.mk.inj same
  have waiting : Delivery.step twoBytes 0 s (.msgLoop : Delivery.Act UInt8 2) = none :=
    Option.isNone_iff_eq_none.mp stuck
  refine ⟨s,run,flight,waiting,?_⟩
  rcases (settles twoBytes 0 (by decide) (by decide) slaveSilent (by decide +kernel) s run).2.2 waiting with
    all | ⟨i,fd,here,-⟩
  · have master := all false
    rw [none_handed,sent] at master
    contradiction
  · exact ⟨i,fd,here⟩

end RfidStation.Waiting
