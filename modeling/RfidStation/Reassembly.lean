import RfidStation.Lib.Blocks
import RfidStation.Lib.Runs
import Mathlib.Logic.Function.Basic

/-! msg_loop (merger/server.c) over one master and one slave connection, with recvn
(common/http.c) receive by receive. Both roles are read into the same buffer. `unread` is
what a role has sent and nobody has received, `taken` the packets given to handle_packet
with their action. -/
namespace RfidStation.Reassembly
open Blocks
open Function (update update_self update_of_ne)

inductive RecvResult where
  | received (n : Nat)
  | interrupted
  | ended
  | error
  deriving DecidableEq, Repr

variable {β : Type}

def write (buf : List β) (offset : Nat) (cells : List β) : List β :=
  buf.take offset ++ cells ++ buf.drop (offset + cells.length)

structure Received (β : Type) where
  readlen : Int
  buf : List β
  unread : List β
  deriving DecidableEq, Repr

-- The results are those of the calls of recv that recvn makes. One that returns cells takes
-- them from the head of the stream; the end is seen when everything has been taken.
def recvn (size : Nat) : List β → List β → Nat → List RecvResult → Option (Received β)
  | buf, unread, recvtotal, [] =>
    if recvtotal < size then none else some ⟨recvtotal,buf,unread⟩
  | buf, unread, recvtotal, recvlen :: rest => if recvtotal < size then
      match recvlen with
      | .interrupted => recvn size buf unread recvtotal rest
      | .error => if rest = [] then some ⟨-1,buf,unread⟩ else none
      | .ended => if unread = [] ∧ rest = [] then some ⟨recvtotal,buf,unread⟩ else none
      | .received n => if 0 < n ∧ n ≤ size - recvtotal ∧ n ≤ unread.length then
          recvn size (write buf recvtotal (unread.take n)) (unread.drop n) (recvtotal + n) rest
        else none
    else none

inductive Fd where
  | waiting | opened | closed
  deriving DecidableEq, Repr

/- `exited` is the end of the program through IF_ERROR, `stopped` the return of msg_loop. -/
inductive Pc where
  | poll | accept | read (i : Bool) | exited | stopped
  deriving DecidableEq, Repr

structure State (β : Type) where
  unread : Bool → List β
  fds : Bool → Fd
  buf : List β
  listenReady : Bool
  ready : Bool → Bool
  pc : Pc
  taken : List (Bool × List β)

inductive Act where
  | poll (listenReady : Bool) (ready : Bool → Bool)
  | pollInterrupted
  | accept (role : Bool)
  | acceptInterrupted
  | noAccept
  | read (results : List RecvResult)
  | noRead

def initial (buf : List β) (sent : Bool → List β) : State β :=
  ⟨sent,fun _ => .waiting,buf,false,fun _ => false,.poll,[]⟩

def afterRead (i : Bool) : Pc := if i then .poll else .read true

def afterRecvn (size : Nat) (s : State β) (i : Bool) (r : Received β) : State β :=
  let s := {s with buf := r.buf, unread := update s.unread i r.unread}
  if r.readlen = -1 then {s with pc := .stopped}
  else if r.readlen < size then {s with fds := update s.fds i .closed, pc := afterRead i}
  else {s with taken := s.taken ++ [(i,r.buf)], pc := afterRead i}

def msgLoop (size : Nat) (s : State β) : Act → Option (State β)
  | .poll listenReady ready => if s.pc = .poll ∧ (listenReady → ∃ i, s.fds i = .waiting) ∧
      (∀ i, ready i → s.fds i = .opened) ∧ (listenReady ∨ ∃ i, ready i) then
        some {s with listenReady := listenReady, ready := ready, pc := .accept} else none
  | .pollInterrupted => if s.pc = .poll then some {s with pc := .exited} else none
  | .accept role => if s.pc = .accept ∧ s.listenReady ∧ s.fds role = .waiting then
      some {s with fds := update s.fds role .opened, pc := .read false} else none
  | .acceptInterrupted => if s.pc = .accept ∧ s.listenReady then
      some {s with pc := .exited} else none
  | .noAccept => if s.pc = .accept ∧ ¬ s.listenReady then
      some {s with pc := .read false} else none
  | .read results => match s.pc with
    | .read i => if s.ready i then
        (recvn size s.buf (s.unread i) 0 results).map (afterRecvn size s i) else none
    | _ => none
  | .noRead => match s.pc with
    | .read i => if s.ready i then none else some {s with pc := afterRead i}
    | _ => none

-- Connections that stay open until their senders close them: recv fails only with EINTR.
def lasting : Act → Bool
  | .read results => .error ∉ results
  | _ => true

def step (size : Nat) (s : State β) (a : Act) : Option (State β) :=
  if lasting a then msgLoop size s a else none

/-! recvn: however the stream is divided, the buffer is filled with its head, or the stream
ends before that. -/

theorem writeLength {buf cells : List β} {offset : Nat} (inside : offset + cells.length ≤ buf.length) :
    (write buf offset cells).length = buf.length := by
  simp only [write,List.length_append,List.length_take,List.length_drop]
  omega

theorem writeTake {buf cells : List β} {offset : Nat} (inside : offset ≤ buf.length) :
    (write buf offset cells).take (offset + cells.length) = buf.take offset ++ cells := by
  have length : (buf.take offset ++ cells).length = offset + cells.length := by
    rw [List.length_append,List.length_take,Nat.min_eq_left inside]
  rw [write,← length,List.take_left]

structure Filled (size : Nat) (buf unread : List β) (recvtotal : Nat) (r : Received β) : Prop where
  enough : size - recvtotal ≤ unread.length
  readlen : r.readlen = size
  buf : r.buf = buf.take recvtotal ++ unread.take (size - recvtotal)
  unread : r.unread = unread.drop (size - recvtotal)

structure Short (size : Nat) (unread : List β) (recvtotal : Nat) (r : Received β) : Prop where
  short : unread.length < size - recvtotal
  readlen : r.readlen = (recvtotal + unread.length : Nat)
  room : r.buf.length = size
  unread : r.unread = []

theorem recvnReturns {size : Nat} {results : List RecvResult} {buf unread : List β}
    {recvtotal : Nat} {r : Received β} (room : buf.length = size) (below : recvtotal ≤ size)
    (lasting : .error ∉ results) (h : recvn size buf unread recvtotal results = some r) :
    Filled size buf unread recvtotal r ∨ Short size unread recvtotal r := by
  induction results generalizing buf unread recvtotal with
  | nil =>
    rw [recvn] at h
    split at h <;> cases h
    have full : recvtotal = size := by omega
    subst full
    exact .inl ⟨by omega,rfl,by simp [← room],by simp⟩
  | cons recvlen rest ih =>
    have later : .error ∉ rest := fun mem => lasting (List.mem_cons_of_mem _ mem)
    rw [recvn.eq_def] at h
    obtain ⟨more,h⟩ := Option.ite_none_right_eq_some.mp h
    cases recvlen with
    | interrupted => exact ih room below later h
    | error => exact absurd List.mem_cons_self lasting
    | ended =>
      obtain ⟨⟨rfl,-⟩,rfl⟩ := Runs.guarded h
      exact .inr ⟨by simp only [List.length_nil]; omega,rfl,room,rfl⟩
    | received n =>
      obtain ⟨⟨pos,fits,there⟩,h⟩ := Option.ite_none_right_eq_some.mp h
      have taken : (unread.take n).length = n := List.length_take_of_le there
      have together : size - recvtotal = n + (size - (recvtotal + n)) := by omega
      have written : (write buf recvtotal (unread.take n)).take (recvtotal + n) =
          buf.take recvtotal ++ unread.take n := by
        have offset : recvtotal ≤ buf.length := room ▸ below
        rw [← writeTake offset,taken]
      rcases ih (by rw [writeLength (by omega),room]) (by omega) later h with full | short
      · refine .inl ⟨?_,full.readlen,?_,?_⟩
        · have enough := full.enough
          rw [List.length_drop] at enough
          omega
        · rw [full.buf,written,together,List.take_add,List.append_assoc]
        · rw [full.unread,List.drop_drop,← together]
      · have less := short.short
        have length := short.readlen
        rw [List.length_drop] at less length
        exact .inr ⟨by omega,by omega,short.room,short.unread⟩

def packets (s : State β) (i : Bool) : List (List β) :=
  (s.taken.filter (fun p => p.1 = i)).map Prod.snd

structure Exact (size : Nat) (sent : Bool → List β) (s : State β) : Prop where
  inOrder : ∀ i, packets s i <+: blocks size (sent i)
  whole : ∀ i, s.fds i = .closed ∨ s.pc = .exited → packets s i = blocks size (sent i)

def interrupts : Act → Bool
  | .pollInterrupted => true
  | .acceptInterrupted => true
  | _ => false

/-- poll and accept are interrupted only when no whole packet is left to be read. -/
def NothingCut (size : Nat) (s : State β) (a : Act) : Prop :=
  interrupts a → ∀ i, (s.unread i).length < size

instance (size : Nat) (s : State β) (a : Act) : Decidable (NothingCut size s a) :=
  inferInstanceAs (Decidable (_ → _))

-- The turn of `i` in the reading loop is still to come, or under way.
def ahead : Pc → Bool → Prop
  | .accept, _ => True
  | .read j, i => j = false ∨ i = true
  | _, _ => False

structure Inv (size : Nat) (sent : Bool → List β) (s : State β) : Prop where
  room : s.buf.length = size
  wide : ∀ p ∈ s.taken, p.2.length = size
  opened : ∀ i, s.fds i ≠ .closed → (packets s i).flatten ++ s.unread i = sent i
  closed : ∀ i, s.fds i = .closed → packets s i = blocks size (sent i) ∧ s.unread i = []
  reading : ∀ i, ahead s.pc i → s.ready i → s.fds i = .opened
  exited : s.pc = .exited → ∀ i, packets s i = blocks size (sent i)

theorem packetsWide {size : Nat} {sent : Bool → List β} {s : State β} (inv : Inv size sent s)
    (i : Bool) : ∀ f ∈ packets s i, f.length = size := by
  intro f mem
  obtain ⟨p,among,rfl⟩ := List.mem_map.mp mem
  exact inv.wide p (List.mem_filter.mp among).1

theorem sentBlocks {size : Nat} {sent : Bool → List β} {s : State β} (pos : 0 < size)
    (inv : Inv size sent s) {i : Bool} (opened : s.fds i ≠ .closed) :
    blocks size (sent i) = packets s i ++ blocks size (s.unread i) := by
  have wide := packetsWide inv i
  have whole : size ∣ (packets s i).flatten.length := by
    have parts := flatMapWhole (f := id) (fun f mem => ⟨1,by rw [id,wide f mem,Nat.mul_one]⟩)
    rwa [List.flatMap_id] at parts
  rw [← inv.opened i opened,blocksAppend pos whole,blocksFlatten pos wide]

theorem allTaken {size : Nat} {sent : Bool → List β} {s : State β} (pos : 0 < size)
    (inv : Inv size sent s) {i : Bool} (short : (s.unread i).length < size) :
    packets s i = blocks size (sent i) := by
  by_cases closed : s.fds i = .closed
  · exact (inv.closed i closed).1
  · rw [sentBlocks pos inv closed,blocksShort short,List.append_nil]

theorem exactOfInv {size : Nat} {sent : Bool → List β} (pos : 0 < size) (s : State β)
    (inv : Inv size sent s) : Exact size sent s := by
  constructor
  · intro i
    by_cases closed : s.fds i = .closed
    · exact (inv.closed i closed).1 ▸ List.prefix_refl _
    · rw [sentBlocks pos inv closed]
      exact List.prefix_append _ _
  · rintro i (closed | exited)
    · exact (inv.closed i closed).1
    · exact inv.exited exited i

theorem initialInv {size : Nat} {buf : List β} (room : buf.length = size) (sent : Bool → List β) :
    Inv size sent (initial buf sent) := by
  constructor <;> simp [initial,packets,ahead,room]

theorem packetsSnoc (s t : State β) {i : Bool} {buf : List β} (taken : t.taken = s.taken ++ [(i,buf)])
    (j : Bool) : packets t j = if i = j then packets s j ++ [buf] else packets s j := by
  rw [packets,packets,taken,List.filter_append,List.map_append]
  split <;> simp [*]

section Steps
variable {size : Nat} {s t : State β}

theorem stepLasts {a} (h : step size s a = some t) : lasting a ∧ msgLoop size s a = some t :=
  Option.ite_none_right_eq_some.mp h

theorem stepPoll {listenReady ready} (h : step size s (.poll listenReady ready) = some t) :
    (∀ i, ready i → s.fds i = .opened) ∧
      t = {s with listenReady := listenReady, ready := ready, pc := .accept} := by
  obtain ⟨⟨-,-,opened,-⟩,rfl⟩ := Runs.guarded (stepLasts h).2
  exact ⟨opened,rfl⟩

theorem stepInterrupted {a} (cut : interrupts a) (h : step size s a = some t) :
    t = {s with pc := .exited} := by
  cases a with
  | pollInterrupted => exact (Runs.guarded (stepLasts h).2).2
  | acceptInterrupted => exact (Runs.guarded (stepLasts h).2).2
  | _ => contradiction

theorem stepAccept {role} (h : step size s (.accept role) = some t) :
    s.pc = .accept ∧ s.fds role = .waiting ∧
      t = {s with fds := update s.fds role .opened, pc := .read false} := by
  obtain ⟨⟨here,-,waiting⟩,rfl⟩ := Runs.guarded (stepLasts h).2
  exact ⟨here,waiting,rfl⟩

theorem stepNoAccept (h : step size s .noAccept = some t) :
    s.pc = .accept ∧ t = {s with pc := .read false} := by
  obtain ⟨⟨here,-⟩,rfl⟩ := Runs.guarded (stepLasts h).2
  exact ⟨here,rfl⟩

theorem stepNoRead (h : step size s .noRead = some t) :
    ∃ i, s.pc = .read i ∧ t = {s with pc := afterRead i} := by
  have moved := (stepLasts h).2
  simp only [msgLoop] at moved
  split at moved <;> try contradiction
  split at moved <;> try contradiction
  exact ⟨_,‹_›,(Option.some.inj moved).symm⟩

theorem stepRead {results} (room : s.buf.length = size) (h : step size s (.read results) = some t) :
    ∃ i, s.pc = .read i ∧ s.ready i ∧
      (size ≤ (s.unread i).length ∧ t = {s with
          buf := (s.unread i).take size
          unread := update s.unread i ((s.unread i).drop size)
          taken := s.taken ++ [(i,(s.unread i).take size)]
          pc := afterRead i} ∨
        (s.unread i).length < size ∧ ∃ buf : List β, buf.length = size ∧ t = {s with
          buf := buf
          unread := update s.unread i []
          fds := update s.fds i .closed
          pc := afterRead i}) := by
  obtain ⟨lasts,moved⟩ := stepLasts h
  simp only [msgLoop] at moved
  split at moved <;> try contradiction
  rename_i i here
  obtain ⟨ready,moved⟩ := Option.ite_none_right_eq_some.mp moved
  obtain ⟨r,returned,rfl⟩ := Option.map_eq_some_iff.mp moved
  refine ⟨i,here,ready,?_⟩
  have clean : RecvResult.error ∉ results := of_decide_eq_true lasts
  rcases recvnReturns room (Nat.zero_le size) clean returned with full | short
  · refine .inl ⟨full.enough,?_⟩
    have readlen := full.readlen
    simp only [afterRecvn]
    rw [if_neg (by omega),if_neg (by omega),full.buf,full.unread]
    simp
  · refine .inr ⟨short.short,r.buf,short.room,?_⟩
    have readlen := short.readlen
    have less := short.short
    simp only [afterRecvn]
    rw [if_neg (by omega),if_pos (by omega),short.unread]

end Steps

theorem aheadAfter {i j : Bool} (coming : ahead (afterRead i) j) :
    ahead (.read i) j ∧ j ≠ i := by
  cases i <;> cases j <;> simp_all [afterRead,ahead]

theorem readInv {size : Nat} {sent : Bool → List β} {s t : State β} {results} (pos : 0 < size)
    (inv : Inv size sent s) (h : step size s (.read results) = some t) : Inv size sent t := by
  obtain ⟨i,here,ready,outcome⟩ := stepRead inv.room h
  have opened : s.fds i = .opened := inv.reading i (by rw [here]; cases i <;> simp [ahead]) ready
  have later (j : Bool) (coming : ahead (afterRead i) j) : ahead s.pc j ∧ j ≠ i := by
    rw [here]; exact aheadAfter coming
  rcases outcome with ⟨enough,rfl⟩ | ⟨short,buf,room,rfl⟩
  · have length : ((s.unread i).take size).length = size := List.length_take_of_le enough
    have grown := packetsSnoc s {s with
      buf := (s.unread i).take size
      unread := update s.unread i ((s.unread i).drop size)
      taken := s.taken ++ [(i,(s.unread i).take size)]
      pc := afterRead i} rfl
    refine ⟨length,?_,?_,?_,?_,?_⟩
    · intro p mem
      rcases List.mem_append.mp mem with before | new
      · exact inv.wide p before
      · rw [List.mem_singleton.mp new]; exact length
    · intro j open_
      have held := inv.opened j open_
      rw [grown]
      by_cases same : i = j
      · subst same
        simpa using held
      · rw [if_neg same]
        simpa only [update_of_ne (Ne.symm same)] using held
    · intro j closed
      have other : i ≠ j := by
        rintro rfl
        simp [opened] at closed
      rw [grown,if_neg other]
      simpa only [update_of_ne (Ne.symm other)] using inv.closed j closed
    · exact fun j coming ready => inv.reading j (later j coming).1 ready
    · cases i <;> simp [afterRead]
  · have known : (packets s i).flatten ++ s.unread i = sent i := inv.opened i (by simp [opened])
    refine ⟨room,inv.wide,?_,?_,?_,?_⟩
    · intro j open_
      have other : j ≠ i := by
        rintro rfl
        simp at open_
      simp only [update_of_ne other] at open_ ⊢
      exact inv.opened j open_
    · intro j closed
      by_cases same : j = i
      · subst same
        exact ⟨allTaken pos inv short,update_self ..⟩
      · simp only [update_of_ne same] at closed ⊢
        exact inv.closed j closed
    · intro j coming ready
      obtain ⟨before,other⟩ := later j coming
      simp only [update_of_ne other]
      exact inv.reading j before ready
    · cases i <;> simp [afterRead]

theorem stepInv {size : Nat} {sent : Bool → List β} {s t : State β} {a} (pos : 0 < size)
    (inv : Inv size sent s) (uncut : NothingCut size s a) (h : step size s a = some t) :
    Inv size sent t := by
  have cut (interrupted : interrupts a) : Inv size sent t := by
    obtain rfl := stepInterrupted interrupted h
    exact ⟨inv.room,inv.wide,inv.opened,inv.closed,fun _ coming => coming.elim,
      fun _ i => allTaken pos inv (uncut interrupted i)⟩
  cases a with
  | poll listenReady ready =>
    obtain ⟨opened,rfl⟩ := stepPoll h
    exact ⟨inv.room,inv.wide,inv.opened,inv.closed,fun i _ => opened i,by simp⟩
  | pollInterrupted => exact cut rfl
  | acceptInterrupted => exact cut rfl
  | accept role =>
    obtain ⟨here,waiting,rfl⟩ := stepAccept h
    have known : (packets s role).flatten ++ s.unread role = sent role :=
      inv.opened role (by simp [waiting])
    refine ⟨inv.room,inv.wide,?_,?_,?_,by simp⟩
    · intro i open_
      by_cases same : i = role
      · subst same; exact known
      · simp only [update_of_ne same] at open_
        exact inv.opened i open_
    · intro i closed
      by_cases same : i = role
      · simp [same] at closed
      · simp only [update_of_ne same] at closed
        exact inv.closed i closed
    · intro i _ ready
      by_cases same : i = role
      · simp [same]
      · simp only [update_of_ne same]
        exact inv.reading i (by rw [here]; trivial) ready
  | noAccept =>
    obtain ⟨here,rfl⟩ := stepNoAccept h
    exact ⟨inv.room,inv.wide,inv.opened,inv.closed,
      fun i _ => inv.reading i (by rw [here]; trivial),by simp⟩
  | read results => exact readInv pos inv h
  | noRead =>
    obtain ⟨i,here,rfl⟩ := stepNoRead h
    refine ⟨inv.room,inv.wide,inv.opened,inv.closed,fun j coming => ?_,by cases i <;> simp [afterRead]⟩
    exact inv.reading j (here ▸ (aheadAfter coming).1)

theorem spoils {size : Nat} {sent : Bool → List β} {s t : State β} {a} (pos : 0 < size)
    (inv : Inv size sent s) (lost : ¬ NothingCut size s a) (h : step size s a = some t) :
    ¬ Exact size sent t := by
  obtain ⟨interrupted,i,enough⟩ : interrupts a ∧ ∃ i, ¬ (s.unread i).length < size := by
    by_contra none
    exact lost (fun interrupted i => by_contra (fun enough => none ⟨interrupted,i,enough⟩))
  obtain rfl := stepInterrupted interrupted h
  have open_ : s.fds i ≠ .closed := by
    intro closed
    rw [(inv.closed i closed).2] at enough
    exact enough pos
  intro exact_
  have all : packets s i = blocks size (sent i) := exact_.whole i (.inr rfl)
  rw [sentBlocks pos inv open_,blocksCons pos (by omega)] at all
  have count := congrArg List.length all
  simp only [List.length_append,List.length_cons] at count
  omega

/-! msg_loop never gets stuck: without further interruptions it can go on until both
connections are closed. -/

def cost : Fd → List β → Nat
  | .waiting, unread => unread.length + 2
  | .opened, unread => unread.length + 1
  | .closed, _ => 0

def left (s : State β) : Nat :=
  cost (s.fds false) (s.unread false) + cost (s.fds true) (s.unread true)

structure Live (s : State β) : Prop where
  running : s.pc ≠ .exited ∧ s.pc ≠ .stopped
  listening : s.pc = .accept → s.listenReady → ∃ i, s.fds i = .waiting

theorem recvnPossible (size : Nat) (buf unread : List β) (pos : 0 < size) :
    ∃ results, .error ∉ results ∧ (recvn size buf unread 0 results).isSome := by
  by_cases enough : size ≤ unread.length
  · exact ⟨[.received size],by simp,by simp [recvn,pos,enough]⟩
  · have less : unread.length < size := Nat.lt_of_not_le enough
    by_cases nothing : unread = []
    · exact ⟨[.ended],by simp,by simp [recvn,pos,nothing]⟩
    · have some_cells := List.length_pos_iff.mpr nothing
      exact ⟨[.received unread.length,.ended],by simp,
        by simp [recvn,pos,some_cells,less,Nat.le_of_lt less]⟩

theorem afterReadRunning (i : Bool) : afterRead i ≠ .exited ∧ afterRead i ≠ .stopped := by
  cases i <;> simp [afterRead]

theorem readTurn {size : Nat} {sent : Bool → List β} {s : State β} {i : Bool} (pos : 0 < size)
    (inv : Inv size sent s) (here : s.pc = .read i) :
    ∃ a t, interrupts a = false ∧ step size s a = some t ∧ t.pc = afterRead i ∧
      t.ready = s.ready ∧ left t ≤ left s ∧ (s.ready i → left t < left s) := by
  by_cases ready : s.ready i
  · obtain ⟨results,clean,returned⟩ := recvnPossible size s.buf (s.unread i) pos
    obtain ⟨r,returned⟩ := Option.isSome_iff_exists.mp returned
    have moved : step size s (.read results) = some (afterRecvn size s i r) := by
      simp [step,lasting,clean,msgLoop,here,ready,returned]
    have opened : s.fds i = .opened := inv.reading i (by rw [here]; cases i <;> simp [ahead]) ready
    refine ⟨_,_,rfl,moved,?_⟩
    obtain ⟨j,there,-,outcome⟩ := stepRead inv.room moved
    obtain rfl : i = j := Pc.read.inj (here.symm.trans there)
    have fewer : left (afterRecvn size s i r) < left s := by
      rcases outcome with ⟨enough,same⟩ | ⟨-,buf,-,same⟩
      · rw [same]
        cases i <;> simp [left,update,opened,cost] <;> omega
      · rw [same]
        cases i <;> simp [left,update,opened,cost]
    refine ⟨?_,?_,Nat.le_of_lt fewer,fun _ => fewer⟩
    · rcases outcome with ⟨-,same⟩ | ⟨-,buf,-,same⟩ <;> rw [same]
    · rcases outcome with ⟨-,same⟩ | ⟨-,buf,-,same⟩ <;> rw [same]
  · have moved : step size s .noRead = some {s with pc := afterRead i} := by
      simp [step,lasting,msgLoop,here,ready]
    exact ⟨_,_,rfl,moved,rfl,rfl,Nat.le_refl _,fun it => absurd it ready⟩

def Goes (size : Nat) (s t : State β) : Prop :=
  ∃ acts, (∀ a ∈ acts, interrupts a = false) ∧ Runs.exec (step size) s acts = some t

theorem goesTrans {size : Nat} {s t u : State β} (first : Goes size s t) (rest : Goes size t u) :
    Goes size s u := by
  obtain ⟨acts,silent,run⟩ := first
  obtain ⟨more,quiet,later⟩ := rest
  refine ⟨acts ++ more,?_,by rw [Runs.execAppend,run,Option.bind_some,later]⟩
  intro a mem
  rcases List.mem_append.mp mem with before | after
  · exact silent a before
  · exact quiet a after

theorem goesOn {size : Nat} {s t u : State β} {a} (quiet : interrupts a = false)
    (moved : step size s a = some t) (rest : Goes size t u) : Goes size s u :=
  goesTrans ⟨[a],by simpa using quiet,by rw [Runs.exec,moved]; rfl⟩ rest

theorem quietInv {size : Nat} {sent : Bool → List β} {s t : State β} {a} (pos : 0 < size)
    (inv : Inv size sent s) (quiet : interrupts a = false) (h : step size s a = some t) :
    Inv size sent t :=
  stepInv pos inv (fun cut => by simp [quiet] at cut) h

section Progress
variable {size : Nat} {sent : Bool → List β} {s : State β} (pos : 0 < size)
  (inv : Inv size sent s)
include pos inv

theorem readTrueGoes (here : s.pc = .read true) : ∃ t, Goes size s t ∧ Inv size sent t ∧
    t.pc = .poll ∧ left t ≤ left s ∧ (s.ready true → left t < left s) := by
  obtain ⟨a,t,quiet,moved,arrived,-,fewer,less⟩ := readTurn pos inv here
  exact ⟨t,goesOn quiet moved ⟨[],by simp,rfl⟩,quietInv pos inv quiet moved,arrived,fewer,less⟩

theorem readFalseGoes (here : s.pc = .read false) : ∃ t, Goes size s t ∧ Inv size sent t ∧
    t.pc = .poll ∧ left t ≤ left s ∧ ((∃ i, s.ready i) → left t < left s) := by
  obtain ⟨a,m,quiet,moved,arrived,kept,fewer,less⟩ := readTurn pos inv here
  obtain ⟨t,goes,later,polling,fewer',less'⟩ :=
    readTrueGoes pos (quietInv pos inv quiet moved) arrived
  refine ⟨t,goesOn quiet moved goes,later,polling,Nat.le_trans fewer' fewer,?_⟩
  rintro ⟨i,ready⟩
  cases i with
  | false => exact Nat.lt_of_le_of_lt fewer' (less ready)
  | true => exact Nat.lt_of_lt_of_le (less' (kept ▸ ready)) fewer

theorem acceptGoes (here : s.pc = .accept) (listening : s.listenReady → ∃ i, s.fds i = .waiting) :
    ∃ t, Goes size s t ∧ Inv size sent t ∧ t.pc = .poll ∧ left t ≤ left s ∧
      (s.listenReady ∨ (∃ i, s.ready i) → left t < left s) := by
  by_cases pending : s.listenReady
  · obtain ⟨role,waiting⟩ := listening pending
    have moved : step size s (.accept role) =
        some {s with fds := update s.fds role .opened, pc := .read false} := by
      simp [step,lasting,msgLoop,here,pending,waiting]
    have fewer : left {s with fds := update s.fds role .opened, pc := .read false} < left s := by
      cases role <;> simp [left,update,waiting,cost]
    obtain ⟨t,goes,later,polling,less,-⟩ := readFalseGoes pos (quietInv pos inv rfl moved) rfl
    have less := Nat.lt_of_le_of_lt less fewer
    exact ⟨t,goesOn rfl moved goes,later,polling,Nat.le_of_lt less,fun _ => less⟩
  · have moved : step size s .noAccept = some {s with pc := .read false} := by
      simp [step,lasting,msgLoop,here,pending]
    obtain ⟨t,goes,later,polling,fewer,less⟩ := readFalseGoes pos (quietInv pos inv rfl moved) rfl
    refine ⟨t,goesOn rfl moved goes,later,polling,fewer,?_⟩
    exact fun some_work => less (some_work.resolve_left pending)

theorem pollGoes (here : s.pc = .poll) (more : 0 < left s) :
    ∃ t, Goes size s t ∧ Inv size sent t ∧ t.pc = .poll ∧ left t < left s := by
  by_cases waiting : ∃ i, s.fds i = .waiting
  · have moved : step size s (.poll true (fun _ => false)) =
        some {s with listenReady := true, ready := fun _ => false, pc := .accept} := by
      simp [step,lasting,msgLoop,here,waiting]
    obtain ⟨t,goes,later,polling,-,less⟩ :=
      acceptGoes pos (quietInv pos inv rfl moved) rfl (fun _ => waiting)
    exact ⟨t,goesOn rfl moved goes,later,polling,less (.inl rfl)⟩
  · obtain ⟨i,opened⟩ : ∃ i, s.fds i = .opened := by
      by_contra none
      have closed (i : Bool) : s.fds i = .closed := by
        cases status : s.fds i with
        | waiting => exact absurd ⟨i,status⟩ waiting
        | opened => exact absurd ⟨i,status⟩ none
        | closed => rfl
      simp [left,closed,cost] at more
    have moved : step size s (.poll false (fun j => j = i)) =
        some {s with listenReady := false, ready := fun j => j = i, pc := .accept} := by
      simp [step,lasting,msgLoop,here,opened]
    obtain ⟨t,goes,later,polling,-,less⟩ :=
      acceptGoes pos (quietInv pos inv rfl moved) rfl (by simp)
    exact ⟨t,goesOn rfl moved goes,later,polling,less (.inr ⟨i,by simp⟩)⟩

end Progress

theorem closedOfNothingLeft {s : State β} (nothing : left s = 0) (i : Bool) : s.fds i = .closed := by
  cases status : s.fds i with
  | closed => rfl
  | _ => cases i <;> simp [left,status,cost] at nothing

theorem pollFinishes {size : Nat} {sent : Bool → List β} {s : State β} (pos : 0 < size)
    (inv : Inv size sent s) (here : s.pc = .poll) :
    ∃ t, Goes size s t ∧ Inv size sent t ∧ ∀ i, t.fds i = .closed := by
  induction rest : left s using Nat.strongRecOn generalizing s with
  | ind n ih =>
    by_cases nothing : left s = 0
    · exact ⟨s,⟨[],by simp,rfl⟩,inv,closedOfNothingLeft nothing⟩
    · obtain ⟨m,first,later,polling,less⟩ := pollGoes pos inv here (Nat.pos_of_ne_zero nothing)
      obtain ⟨t,goes,kept,closed⟩ := ih (left m) (rest ▸ less) later polling rfl
      exact ⟨t,goesTrans first goes,kept,closed⟩

theorem stepLive {size : Nat} {sent : Bool → List β} {s t : State β} {a} (inv : Inv size sent s)
    (uncut : interrupts a = false) (h : step size s a = some t) : Live t := by
  cases a with
  | poll listenReady ready =>
    obtain ⟨⟨-,listening,-⟩,rfl⟩ := Runs.guarded (stepLasts h).2
    exact ⟨by simp,fun _ => listening⟩
  | pollInterrupted => contradiction
  | acceptInterrupted => contradiction
  | accept role =>
    obtain ⟨-,-,rfl⟩ := stepAccept h
    exact ⟨by simp,by simp⟩
  | noAccept =>
    obtain ⟨-,rfl⟩ := stepNoAccept h
    exact ⟨by simp,by simp⟩
  | read results =>
    obtain ⟨i,-,-,⟨-,rfl⟩ | ⟨-,buf,-,rfl⟩⟩ := stepRead inv.room h
    · exact ⟨afterReadRunning i,by cases i <;> simp [afterRead]⟩
    · exact ⟨afterReadRunning i,by cases i <;> simp [afterRead]⟩
  | noRead =>
    obtain ⟨i,-,rfl⟩ := stepNoRead h
    exact ⟨afterReadRunning i,by cases i <;> simp [afterRead]⟩

theorem finishes {size : Nat} {sent : Bool → List β} {s : State β} (pos : 0 < size)
    (inv : Inv size sent s) (live : Live s) :
    ∃ t, Goes size s t ∧ Inv size sent t ∧ ∀ i, t.fds i = .closed := by
  obtain ⟨m,first,later,polling⟩ : ∃ m, Goes size s m ∧ Inv size sent m ∧ m.pc = .poll := by
    cases here : s.pc with
    | poll => exact ⟨s,⟨[],by simp,rfl⟩,inv,here⟩
    | accept =>
      obtain ⟨t,goes,later,polling,-⟩ := acceptGoes pos inv here (live.listening here)
      exact ⟨t,goes,later,polling⟩
    | read i =>
      cases i with
      | false =>
        obtain ⟨t,goes,later,polling,-⟩ := readFalseGoes pos inv here
        exact ⟨t,goes,later,polling⟩
      | true =>
        obtain ⟨t,goes,later,polling,-⟩ := readTrueGoes pos inv here
        exact ⟨t,goes,later,polling⟩
    | exited => exact absurd here live.running.1
    | stopped => exact absurd here live.running.2
  obtain ⟨t,goes,kept,closed⟩ := pollFinishes pos later polling
  exact ⟨t,goesTrans first goes,kept,closed⟩

/-- Unless poll or accept is interrupted with a whole packet left, the packets taken from
each role are the blocks of its stream, whatever recv returns and poll reports; and without
such interruptions every run can go on until both connections are closed, all blocks taken. -/
theorem packetsAreBlocksIff {size : Nat} (pos : 0 < size) {buf : List β}
    (room : buf.length = size) (sent : Bool → List β) (acts : List Act) :
    (Runs.Always (step size) (Exact size sent) (initial buf sent) acts ↔
      Runs.Meets (step size) (NothingCut size) (initial buf sent) acts) ∧
    ((∀ a ∈ acts, interrupts a = false) →
      ∀ s, Runs.exec (step size) (initial buf sent) acts = some s →
        ∃ t, Goes size s t ∧ ∀ i, t.fds i = .closed ∧ packets t i = blocks size (sent i)) := by
  constructor
  · exact Runs.alwaysIffMeets (exactOfInv pos) (fun _ _ _ => stepInv pos) (fun _ _ _ => spoils pos)
      (initialInv room sent) acts
  · intro quiet s run
    have keeps (u : State β) (a : Act) (v : State β) (held : Inv size sent u ∧ Live u)
        (silent : interrupts a = false) (h : step size u a = some v) : Inv size sent v ∧ Live v :=
      ⟨quietInv pos held.1 silent h,stepLive held.1 silent h⟩
    obtain ⟨inv,live⟩ := Runs.invariantUnder keeps
      ⟨initialInv room sent,by simp [initial],by simp [initial]⟩ (Runs.meetsOf quiet) run
    obtain ⟨t,goes,later,closed⟩ := finishes pos inv live
    exact ⟨t,goes,fun i => ⟨closed i,(later.closed i (closed i)).1⟩⟩

def masterOnly : Bool → List Nat := fun i => if i then [] else [1,7,7,2,8]

def oneByOne : List Act :=
  [.poll true (fun _ => false),.accept false,.noRead,.noRead,.poll false (fun i => !i),.noAccept,
    .read [.received 1,.interrupted,.received 2],.noRead]

theorem packetsAreBlocksDivided :
    Runs.Always (step 3) (Exact 3 masterOnly) (initial [0,0,0] masterOnly) oneByOne := by
  have room : [0,0,0].length = 3 := rfl
  exact (packetsAreBlocksIff (by decide) room masterOnly oneByOne).1.mpr (by decide)

theorem interruptedPollExits : ¬ ∀ (size : Nat) (buf : List Nat) (sent : Bool → List Nat)
    (acts : List Act), 0 < size → buf.length = size →
    Runs.Always (step size) (Exact size sent) (initial buf sent) acts := by
  intro claim
  have always := claim 3 [0,0,0] masterOnly
    [.poll true (fun _ => false),.accept false,.noRead,.noRead,.pollInterrupted] (by decide) rfl
  obtain ⟨t,run,exited,none⟩ : ∃ t, Runs.exec (step 3) (initial [0,0,0] masterOnly)
      [.poll true (fun _ => false),.accept false,.noRead,.noRead,.pollInterrupted] = some t ∧
      t.pc = .exited ∧ packets t false = [] := ⟨_,rfl,rfl,rfl⟩
  have last := Runs.alwaysLast always run
  have all := last.whole false (.inr exited)
  rw [none] at all
  exact absurd all (by decide)

end RfidStation.Reassembly
