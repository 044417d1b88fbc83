import RfidStation.MsgLoop
import Mathlib.Data.List.Nodup

/-! The descriptors that msg_loop (server.c) reads from, against those for which poll has
reported POLLIN. `reported` is history: the descriptor of each slot with POLLIN, as poll saw it. -/
namespace RfidStation.Reported
open MsgLoop

structure Server (β : Type) where
  loop : Loop β
  reported : Bool → Option Nat

/- poll fails, finds POLLERR, or reports POLLIN for the listening socket and the two slots. -/
inductive Polled where
  | failed
  | error
  | events (listen : Bool) (ready : Bool → Bool)

inductive Act (β : Type) where
  | connect (role : Bool)
  | deliver (fd : Nat) (cells : List β)
  | finish (fd : Nat)
  | fail (fd : Nat)
  | poll (result : Polled)
  | accept (ok : Bool)
  | read

variable {β : Type}

def initial : Server β := ⟨MsgLoop.initial,fun _ => none⟩

def fail (l : Loop β) (fd : Nat) : Loop β :=
  {l with conns := setAt l.conns fd {l.conns fd with failed := true}}

-- What is reported as readable has data, or is at the end of its stream.
def truthful (l : Loop β) (listen : Bool) (ready : Bool → Bool) : Bool :=
  (!listen || !l.backlog.isEmpty) && (!ready false || readable l false) && (!ready true || readable l true)

def poll (s : Server β) : Polled → Option (Server β)
  | .failed => some {s with loop := {s.loop with pc := .stopped}}
  | .error => some {s with loop := {s.loop with pc := .stopped}}
  | .events listen ready =>
    if truthful s.loop listen ready then some
      ⟨{s.loop with listenReady := listen, ready := ready, pc := .accept},
        fun i => if ready i then s.loop.fds i else none⟩
    else none

-- An accept that fails ends the process.
def acceptOr (ok : Bool) (l : Loop β) : Option (Loop β) :=
  if ok || !l.listenReady then accept l else some {l with pc := .stopped}

def step (size : Nat) (s : Server β) : Act β → Option (Server β)
  | .connect role => some {s with loop := connect s.loop role}
  | .deliver fd cells => some {s with loop := deliver s.loop fd cells}
  | .finish fd => some {s with loop := finish s.loop fd}
  | .fail fd => some {s with loop := fail s.loop fd}
  | .poll result => match s.loop.pc with
    | .poll => poll s result
    | _ => none
  | .accept ok => match s.loop.pc with
    | .accept => (acceptOr ok s.loop).map (fun loop => {s with loop := loop})
    | _ => none
  | .read => match s.loop.pc with
    | .read i => (readFd size s.loop i).map (fun loop => {s with loop := loop})
    | _ => none

def Input (conn : Conn β) : Prop := conn.unread ≠ [] ∨ conn.ended = true

def SlotReported (s : Server β) (i : Bool) : Prop :=
  ∃ fd, s.loop.fds i = some fd ∧ s.reported i = some fd ∧ Input (s.loop.conns fd)

/-- The call of recvn that comes next, if one does, is on a descriptor that poll reported. -/
def CallReported (s : Server β) : Prop :=
  ∀ i, s.loop.pc = .read i → s.loop.ready i = true → SlotReported s i

/-- accept does not replace the descriptor of a slot whose revents have POLLIN. -/
def NotReplaced (s : Server β) : Act β → Prop
  | .accept true => s.loop.listenReady = true → ∀ newfd ∈ s.loop.backlog.head?,
      s.loop.ready (s.loop.conns newfd).role = false
  | _ => True

instance (s : Server β) (a : Act β) : Decidable (NotReplaced s a) := by
  unfold NotReplaced
  split
  · exact @forall_prop_decidable _ _ inferInstance (fun _ => Option.decidableForallMem _)
  · infer_instance

def pending : Pc → Bool → Bool
  | .accept, _ => true
  | .read false, _ => true
  | .read true, i => i
  | _, _ => false

def SlotsReported (s : Server β) : Prop :=
  ∀ i, pending s.loop.pc i = true → s.loop.ready i = true → SlotReported s i

structure Fresh (l : Loop β) : Prop where
  queued : ∀ fd ∈ l.backlog, fd < l.opened
  once : l.backlog.Nodup
  slot : ∀ i fd, l.fds i = some fd → fd < l.opened ∧ fd ∉ l.backlog ∧ (l.conns fd).role = i

structure Sound (s : Server β) : Prop where
  fresh : Fresh s.loop
  slots : SlotsReported s

theorem initialSound : Sound (initial : Server β) :=
  ⟨⟨nofun,List.nodup_nil,nofun⟩,nofun⟩

theorem soundCall {s : Server β} (sound : Sound s) : CallReported s := by
  intro i here ready
  refine sound.slots i ?_ ready
  rw [here]
  cases i <;> rfl

variable {size : Nat} {s t : Server β} {l m : Loop β}

theorem freshConns (fresh : Fresh l) (conns : Nat → Conn β)
    (roles : ∀ fd < l.opened, (conns fd).role = (l.conns fd).role) : Fresh {l with conns := conns} := by
  refine ⟨fresh.queued,fresh.once,fun i fd using_it => ?_⟩
  obtain ⟨old,unqueued,role⟩ := fresh.slot i fd using_it
  exact ⟨old,unqueued,(roles fd old).trans role⟩

theorem soundConns (sound : Sound s) (conns : Nat → Conn β)
    (roles : ∀ fd < s.loop.opened, (conns fd).role = (s.loop.conns fd).role)
    (input : ∀ fd < s.loop.opened, Input (s.loop.conns fd) → Input (conns fd)) :
    Sound {s with loop := {s.loop with conns := conns}} := by
  refine ⟨freshConns sound.fresh conns roles,fun i waits ready => ?_⟩
  obtain ⟨fd,using_it,reported,some_input⟩ := sound.slots i waits ready
  exact ⟨fd,using_it,reported,input fd (sound.fresh.slot i fd using_it).1 some_input⟩

theorem soundOneConn (sound : Sound s) (fd : Nat) (conn : Conn β) (role : conn.role = (s.loop.conns fd).role)
    (input : Input (s.loop.conns fd) → Input conn) :
    Sound {s with loop := {s.loop with conns := setAt s.loop.conns fd conn}} := by
  refine soundConns sound _ (fun id _ => ?_) (fun id _ some_input => ?_)
  · by_cases same : id = fd
    · rw [same,setAtSame,role]
    · rw [setAtOther _ _ same]
  · by_cases same : id = fd
    · subst id
      rw [setAtSame]
      exact input some_input
    · rw [setAtOther _ _ same]
      exact some_input

theorem connectSound (sound : Sound s) (role : Bool) : Sound {s with loop := connect s.loop role} := by
  have older (fd : Nat) (old : fd < s.loop.opened) :
      setAt s.loop.conns s.loop.opened ⟨role,[],false,false⟩ fd = s.loop.conns fd :=
    setAtOther _ _ (Nat.ne_of_lt old)
  obtain ⟨⟨queued,once,slot⟩,slots⟩ := soundConns sound
    (setAt s.loop.conns s.loop.opened ⟨role,[],false,false⟩) (fun fd old => by rw [older fd old])
    (fun fd old some_input => by rw [older fd old]; exact some_input)
  have unqueued : s.loop.opened ∉ s.loop.backlog := fun mem => Nat.lt_irrefl _ (queued _ mem)
  refine ⟨⟨fun fd mem => ?_,?_,fun i fd using_it => ?_⟩,slots⟩
  · rcases List.mem_append.mp mem with old | new
    · exact Nat.lt_succ_of_lt (queued fd old)
    · rw [List.mem_singleton.mp new]
      exact Nat.lt_succ_self _
  · refine List.nodup_append'.mpr ⟨once,List.nodup_singleton _,?_⟩
    exact List.disjoint_singleton.mpr unqueued
  · obtain ⟨old,absent,known⟩ := slot i fd using_it
    refine ⟨Nat.lt_succ_of_lt old,fun mem => ?_,known⟩
    rcases List.mem_append.mp mem with before | new
    · exact absent before
    · exact Nat.ne_of_lt old (List.mem_singleton.mp new)

theorem freshSame (fresh : Fresh l) (backlog : m.backlog = l.backlog) (fds : m.fds = l.fds)
    (opened : m.opened = l.opened) (conns : m.conns = l.conns) : Fresh m := by
  refine ⟨?_,?_,?_⟩
  · rw [backlog,opened]
    exact fresh.queued
  · rw [backlog]
    exact fresh.once
  · rw [backlog,opened,conns,fds]
    exact fresh.slot

theorem pollSound {result : Polled} (sound : Sound s) (h : poll s result = some t) : Sound t := by
  cases result with
  | failed => cases h; exact ⟨freshSame sound.fresh rfl rfl rfl rfl,nofun⟩
  | error => cases h; exact ⟨freshSame sound.fresh rfl rfl rfl rfl,nofun⟩
  | events listen ready =>
    obtain ⟨allowed,rfl⟩ := Runs.guarded h
    refine ⟨freshSame sound.fresh rfl rfl rfl rfl,fun i _ isReady => ?_⟩
    have seen : readable s.loop i = true := by
      simp only [truthful,Bool.and_eq_true,Bool.or_eq_true,Bool.not_eq_true'] at allowed
      have isReady : ready i = true := isReady
      cases i with
      | false => exact allowed.1.2.resolve_left (by rw [isReady]; decide)
      | true => exact allowed.2.resolve_left (by rw [isReady]; decide)
    have isReady : ready i = true := isReady
    rw [readable] at seen
    cases slot : s.loop.fds i with
    | none => rw [slot] at seen; cases seen
    | some fd =>
      rw [slot] at seen
      refine ⟨fd,slot,(if_pos isReady).trans slot,?_⟩
      rcases Bool.or_eq_true_iff.mp seen with data | ended
      · exact .inl (by simpa using data)
      · exact .inr ended

theorem acceptCases (h : accept l = some m) :
    (∃ newfd rest, l.listenReady = true ∧ l.backlog = newfd :: rest ∧ m = {l with
      backlog := rest
      fds := setAt l.fds (l.conns newfd).role (some newfd)
      pc := .read false}) ∨
    (l.listenReady = false ∧ m = {l with pc := .read false}) := by
  rw [accept] at h
  split at h
  · rename_i listening
    cases queue : l.backlog with
    | nil => rw [queue] at h; cases h
    | cons newfd rest =>
      rw [queue] at h
      exact .inl ⟨newfd,rest,listening,rfl,(Option.some.inj h).symm⟩
  · rename_i idle
    exact .inr ⟨Bool.not_eq_true _ ▸ idle,(Option.some.inj h).symm⟩

theorem freshAccept (fresh : Fresh l) (h : accept l = some m) : Fresh m := by
  obtain ⟨newfd,rest,-,queue,rfl⟩ | ⟨-,rfl⟩ := acceptCases h
  · have first : newfd ∈ l.backlog := queue ▸ List.mem_cons_self
    have once := fresh.once
    rw [queue] at once
    obtain ⟨taken,once⟩ := List.nodup_cons.mp once
    have later (fd : Nat) (mem : fd ∈ rest) : fd ∈ l.backlog := queue ▸ List.mem_cons_of_mem newfd mem
    refine ⟨fun fd mem => fresh.queued fd (later fd mem),once,fun i fd using_it => ?_⟩
    have using_it : setAt l.fds (l.conns newfd).role (some newfd) i = some fd := using_it
    by_cases same : i = (l.conns newfd).role
    · rw [same,setAtSame] at using_it
      obtain rfl := Option.some.inj using_it
      exact ⟨fresh.queued newfd first,taken,same.symm⟩
    · rw [setAtOther _ _ same] at using_it
      obtain ⟨old,absent,role⟩ := fresh.slot i fd using_it
      exact ⟨old,fun mem => absent (later fd mem),role⟩
  · exact freshSame fresh rfl rfl rfl rfl

theorem acceptSound (sound : Sound s) (here : s.loop.pc = .accept) (h : accept s.loop = some m)
    (kept : NotReplaced s (.accept true)) : Sound {s with loop := m} := by
  refine ⟨freshAccept sound.fresh h,fun i _ ready => ?_⟩
  obtain ⟨newfd,rest,listening,queue,rfl⟩ | ⟨-,rfl⟩ := acceptCases h
  · have silent := kept listening newfd (by rw [queue]; rfl)
    have other : i ≠ (s.loop.conns newfd).role := by
      rintro rfl
      exact absurd (silent.symm.trans ready) (by decide)
    obtain ⟨fd,using_it,reported,input⟩ := sound.slots i (by rw [here]; rfl) ready
    exact ⟨fd,(setAtOther _ _ other).trans using_it,reported,input⟩
  · exact sound.slots i (by rw [here]; rfl) ready

theorem readCases {i : Bool} (h : readFd size l i = some m) :
    m.ready = l.ready ∧ m.opened = l.opened ∧ m.backlog = l.backlog ∧ (m.pc = .stopped ∨ m.pc = afterRead i) ∧
    (∀ j, j ≠ i → m.fds j = l.fds j) ∧ (m.fds i = l.fds i ∨ m.fds i = none) ∧
    (∀ fd, (m.conns fd).role = (l.conns fd).role) ∧
    ∀ fd, l.fds i ≠ some fd → m.conns fd = l.conns fd := by
  rw [readFd] at h
  split at h
  · cases slot : l.fds i with
    | none =>
      rw [slot] at h
      cases h
      exact ⟨rfl,rfl,rfl,.inl rfl,fun _ _ => rfl,.inl slot,fun _ => rfl,fun _ _ => rfl⟩
    | some fd =>
      rw [slot] at h
      simp only at h
      split at h
      · cases h
        exact ⟨rfl,rfl,rfl,.inl rfl,fun _ _ => rfl,.inl slot,fun _ => rfl,fun _ _ => rfl⟩
      split at h
      · cases h
        refine ⟨rfl,rfl,rfl,.inr rfl,fun _ _ => rfl,.inl slot,fun id => ?_,fun id other => ?_⟩
        · by_cases same : id = fd
          · rw [same]
            simp only [setAtSame]
          · simp only [setAtOther _ _ same]
        · exact setAtOther _ _ (fun same => other (same ▸ rfl))
      split at h
      · cases h
        exact ⟨rfl,rfl,rfl,.inr rfl,fun _ other => setAtOther _ _ other,.inr (setAtSame ..),fun _ => rfl,
          fun _ _ => rfl⟩
      · cases h
  · cases h
    exact ⟨rfl,rfl,rfl,.inr rfl,fun _ _ => rfl,.inl rfl,fun _ => rfl,fun _ _ => rfl⟩

theorem readSound {i : Bool} (sound : Sound s) (here : s.loop.pc = .read i)
    (h : readFd size s.loop i = some m) : Sound {s with loop := m} := by
  obtain ⟨ready,opened,backlog,pc,others,own,roles,conns⟩ := readCases h
  constructor
  · refine ⟨?_,?_,fun j fd using_it => ?_⟩
    · rw [backlog,opened]
      exact sound.fresh.queued
    · rw [backlog]
      exact sound.fresh.once
    · have before : s.loop.fds j = some fd := by
        by_cases same : j = i
        · subst j
          rcases own with kept | closed
          · exact kept ▸ using_it
          · rw [closed] at using_it
            cases using_it
        · exact others j same ▸ using_it
      rw [backlog,opened,roles]
      exact sound.fresh.slot j fd before
  · intro j waits isReady
    -- only the slave's slot is left to look at, behind the master's
    have turn : i = false ∧ j = true := by
      rcases pc with stopped | next
      · simp only [stopped,pending] at waits
        cases waits
      · simp only [next,afterRead] at waits
        cases i with
        | true => cases waits
        | false => exact ⟨rfl,waits⟩
    obtain ⟨rfl,rfl⟩ := turn
    have isReady : s.loop.ready true = true := ready ▸ isReady
    obtain ⟨fd,using_it,reported,input⟩ := sound.slots true (by rw [here]; rfl) isReady
    have apart : s.loop.fds false ≠ some fd := fun also => by
      have role := (sound.fresh.slot false fd also).2.2
      rw [(sound.fresh.slot true fd using_it).2.2] at role
      cases role
    refine ⟨fd,(others true (by decide)).trans using_it,reported,?_⟩
    simp only [conns fd apart]
    exact input

theorem stepSound {a : Act β} (sound : Sound s) (kept : NotReplaced s a) (h : step size s a = some t) :
    Sound t := by
  cases a with
  | connect role => cases h; exact connectSound sound role
  | deliver fd cells =>
    cases h
    refine soundOneConn sound fd _ rfl fun input => ?_
    exact input.imp_left (fun data none => data (List.append_eq_nil_iff.mp none).1)
  | finish fd => cases h; exact soundOneConn sound fd _ rfl (fun _ => .inr rfl)
  | fail fd => cases h; exact soundOneConn sound fd _ rfl id
  | poll result =>
    rw [step] at h
    split at h
    · exact pollSound sound h
    · cases h
  | accept ok =>
    rw [step] at h
    split at h
    · rename_i here
      obtain ⟨m,moved,rfl⟩ := Option.map_eq_some_iff.mp h
      rw [acceptOr] at moved
      split at moved
      · rename_i taken
        refine acceptSound sound here moved ?_
        cases ok with
        | true => exact kept
        | false =>
          intro listening
          rw [listening] at taken
          cases taken
      · cases moved
        exact ⟨freshSame sound.fresh rfl rfl rfl rfl,nofun⟩
    · cases h
  | read =>
    rw [step] at h
    split at h
    · rename_i i here
      obtain ⟨m,moved,rfl⟩ := Option.map_eq_some_iff.mp h
      exact readSound sound here moved
    · cases h

theorem replacedStale {a : Act β} (sound : Sound s) (replaced : ¬ NotReplaced s a) (h : step size s a = some t) :
    ¬ SlotsReported t := by
  unfold NotReplaced at replaced
  split at replaced
  · simp only [not_forall] at replaced
    obtain ⟨listening,newfd,head,ready⟩ := replaced
    have ready : s.loop.ready (s.loop.conns newfd).role = true := by
      rwa [Bool.not_eq_false] at ready
    rw [step] at h
    split at h
    · rename_i here
      obtain ⟨m,moved,rfl⟩ := Option.map_eq_some_iff.mp h
      rw [acceptOr,Bool.true_or,if_pos rfl] at moved
      obtain ⟨first,rest,-,queue,rfl⟩ | ⟨idle,-⟩ := acceptCases moved
      · rw [queue,List.head?_cons] at head
        obtain rfl : first = newfd := Option.some.inj head
        intro slots
        obtain ⟨fd,using_it,reported,-⟩ := slots (s.loop.conns first).role rfl ready
        obtain ⟨old,before,reported',-⟩ := sound.slots (s.loop.conns first).role (by rw [here]; rfl) ready
        obtain rfl := Option.some.inj (reported.symm.trans reported')
        obtain rfl := Option.some.inj ((setAtSame ..).symm.trans using_it)
        exact (sound.fresh.slot _ _ before).2.1 (queue ▸ List.mem_cons_self)
      · exact absurd (listening.symm.trans idle) (by decide)
    · cases h
  · exact absurd trivial replaced

/-- In a run whose accepts replace no reported descriptor, every call of recvn is on a reported
one; and such an accept is what makes a slot's event bits stale. -/
theorem callsReported (size : Nat) (acts : List (Act β)) :
    (Runs.Meets (step size) NotReplaced initial acts → Runs.Always (step size) CallReported initial acts) ∧
    (Runs.Always (step size) SlotsReported initial acts ↔ Runs.Meets (step size) NotReplaced initial acts) :=
  ⟨Runs.alwaysUnder (fun _ => soundCall) (fun _ _ _ => stepSound) initialSound,
    Runs.alwaysIffMeets (fun _ => Sound.slots) (fun _ _ _ => stepSound) (fun _ _ _ => replacedStale)
      initialSound acts⟩

def oneMaster : List (Act UInt8) := [.connect false,.poll (.events true (fun _ => false)),.accept true,
  .read,.read,.deliver 0 [1,1]]

theorem callsReportedOne : Runs.Always (step 2) CallReported initial
    (oneMaster ++ [.poll (.events false (fun i => !i)),.accept true,.read,.read]) :=
  (callsReported 2 _).1 (by decide)

def secondMaster : List (Act UInt8) :=
  oneMaster ++ [.connect false,.poll (.events true (fun i => !i)),.accept true]

theorem silentDescriptorRead : (∃ s, Runs.exec (step 2) initial secondMaster = some s ∧
      s.loop.fds false = some 1 ∧ s.reported false = some 0 ∧ (s.loop.conns 1).unread = [] ∧
      (step 2 s .read).isNone = true) ∧
    ¬ ∀ (size : Nat) (acts : List (Act UInt8)), Runs.Always (step size) CallReported initial acts := by
  have seen : ((Runs.exec (step 2) initial secondMaster).map (fun s =>
      (s.loop.pc,s.loop.ready false,s.loop.fds false,s.reported false,(s.loop.conns 1).unread,
        (step 2 s .read).isNone))) = some (.read false,true,some 1,some 0,[],true) := rfl
  obtain ⟨s,run,parts⟩ := Option.map_eq_some_iff.mp seen
  simp only [Prod.mk.injEq] at parts
  obtain ⟨pc,ready,slot,reported,silent,blocks⟩ := parts
  refine ⟨⟨s,run,slot,reported,silent,blocks⟩,fun claim => ?_⟩
  have call := Runs.alwaysLast (claim 2 secondMaster) run
  obtain ⟨fd,using_it,polled,-⟩ := call false pc ready
  obtain rfl := Option.some.inj (slot.symm.trans using_it)
  cases reported.symm.trans polled

end RfidStation.Reported
