import RfidStation.Station
import RfidStation.Lib.Locks
import RfidStation.Lib.Memory

/-! The four working threads of the merger statement by statement, as far as they share
lock_notify_queue and lock_timers: set_timeout of the server thread, check_timers with notify of
the timeout thread, commit_notify_queue of the sender thread, and check_lock of the watchdog.
What check_timers finds is left open: it may notify any call. -/
namespace RfidStation.LockedQueue
open Cstr Buffers NotifyQueue Memory
open Merger (Notice)
open MsgLoop (setAt)
open Records (requestSize)
open Station (request)

inductive Thread where
  | server | timeout | sender | watchdog
  deriving DecidableEq, Repr

inductive Lock where
  | notifyQueue | timers
  deriving DecidableEq, Repr

inductive Server where
  | run | lock | set | unlock
  deriving DecidableEq, Repr

inductive NotifyPc where
  | lock | grow | copyId | action | separator | advance | unlock
  deriving DecidableEq, Repr

inductive Checker where
  | sleep | lock | walk | notify (call : Notice) (pc : NotifyPc) | unlock
  deriving DecidableEq, Repr

inductive Sender where
  | idle | testEmpty | testLong | report | lock | setLen | copy | shrink | unlock | send
  deriving DecidableEq, Repr

inductive Watchdog where
  | sleep | acquire (l : Lock) | release (l : Lock)
  deriving DecidableEq, Repr

structure State where
  mem : Nat → UInt8
  len : Nat
  alloc : Nat
  owner : Lock → Option Thread
  server : Server
  timeout : Checker
  sender : Sender
  watchdog : Watchdog
  sendBuf : Option Bytes
  sendLen : Int
  calls : List Notice
  uploads : List Bytes
  acked : List Bytes

def initial : State :=
  ⟨fun _ => 0,0,0,fun _ => none,.run,.sleep,.idle,.sleep,none,0,[],[],[]⟩

inductive Act where
  | setTimeout
  | checkTimers
  | notify (call : Notice)
  | commit
  | upload (reply : Reply)
  | checkLock (timedOut : Bool)
  deriving DecidableEq, Repr

def Act.thread : Act → Thread
  | .setTimeout => .server
  | .checkTimers | .notify _ => .timeout
  | .commit | .upload _ => .sender
  | .checkLock _ => .watchdog

def State.acquire (f : State) (t : Thread) (l : Lock) : Option State :=
  if f.owner l = none then some {f with owner := setAt f.owner l (some t)} else none

def State.release (f : State) (l : Lock) : State := {f with owner := setAt f.owner l none}

def serverStep (f : State) : Option State :=
  match f.server with
  | .run => some {f with server := .lock}
  | .lock => (f.acquire .server .timers).map (fun f => {f with server := .set})
  | .set => some {f with server := .unlock}
  | .unlock => some {f.release .timers with server := .run}

-- A write to the queue. Outside the allocated bytes there is none.
def State.store (f : State) (start : Nat) (cells : Bytes) (next : Checker) : Option State :=
  if start + cells.length ≤ f.alloc then
    some {f with mem := write f.mem start cells, timeout := next} else none

def notifyStep (size : Nat) (f : State) (call : Notice) : NotifyPc → Option State
  | .lock => (f.acquire .timeout .notifyQueue).map (fun f => {f with timeout := .notify call .grow})
  | .grow => some {f with
      alloc := grow f.len (requestSize size) f.alloc
      timeout := .notify call .copyId}
  | .copyId => f.store f.len (call.1.takeD (2 * size) 0) (.notify call .action)
  | .action => f.store (f.len + requestSize size - 2) [48 + UInt8.ofNat call.2.toNat]
      (.notify call .separator)
  | .separator => f.store (f.len + requestSize size - 1) [46] (.notify call .advance)
  | .advance => some {f with
      len := f.len + requestSize size
      calls := f.calls ++ [call]
      timeout := .notify call .unlock}
  | .unlock => some {f.release .notifyQueue with timeout := .walk}

def checkTimersStep (size : Nat) (f : State) : Option State :=
  match f.timeout with
  | .sleep => some {f with timeout := .lock}
  | .lock => (f.acquire .timeout .timers).map (fun f => {f with timeout := .walk})
  | .walk => some {f with timeout := .unlock}
  | .notify call pc => notifyStep size f call pc
  | .unlock => some {f.release .timers with timeout := .sleep}

-- The copy has no step when it would read outside the queue.
def commitStep (l : Limits) (f : State) : Option State :=
  match f.sender with
  | .idle => some {f with sender := if f.sendBuf.isSome then .send else .testEmpty}
  | .testEmpty => some {f with sender := if f.len = 0 then .idle else .testLong}
  | .testLong => if (f.len : Int) > l.maxDataLen then some {f with sender := .report}
      else some {f with sendLen := 0, sender := .lock}
  | .report => some {f with sendLen := l.maxDataLen, sender := .lock}
  | .lock => (f.acquire .sender .notifyQueue).map (fun f => {f with sender := .setLen})
  | .setLen => some {f with sendLen := if f.sendLen = 0 then f.len else f.sendLen, sender := .copy}
  | .copy => if 0 ≤ f.sendLen ∧ f.sendLen ≤ f.len then
      some {f with
        sendBuf := some (slice f.mem (f.len - f.sendLen.toNat) f.sendLen.toNat)
        sender := .shrink}
      else none
  | .shrink => some {f with len := f.len - f.sendLen.toNat, sender := .unlock}
  | .unlock => some {f.release .notifyQueue with sender := .send}
  | .send => none

def uploadStep (l : Limits) (f : State) (reply : Reply) : Option State :=
  match f.sender, f.sendBuf with
  | .send, some body => if acknowledged l reply then
      some {f with sendBuf := none, sender := .idle, uploads := f.uploads ++ [body],
                   acked := f.acked ++ [body]}
    else some {f with sender := .idle, uploads := f.uploads ++ [body]}
  | _, _ => none

def Watchdog.after : Lock → Watchdog
  | .notifyQueue => .acquire .timers
  | .timers => .sleep

-- pthread_mutex_timedlock gives up only on a lock that is taken.
def checkLockStep (f : State) (timedOut : Bool) : Option State :=
  match f.watchdog with
  | .sleep => some {f with watchdog := .acquire .notifyQueue}
  | .acquire l => if timedOut then
      (if f.owner l = none then none else some {f with watchdog := .after l})
      else (f.acquire .watchdog l).map (fun f => {f with watchdog := .release l})
  | .release l => some {f.release l with watchdog := .after l}

def step (l : Limits) (size : Nat) (f : State) : Act → Option State
  | .setTimeout => serverStep f
  | .checkTimers => checkTimersStep size f
  | .notify call => match f.timeout with
    | .walk => some {f with timeout := .notify call .lock}
    | _ => none
  | .commit => commitStep l f
  | .upload reply => uploadStep l f reply
  | .checkLock timedOut => checkLockStep f timedOut

def holds (f : State) : Thread → Lock → Prop
  | .server, .timers => f.server = .set ∨ f.server = .unlock
  | .timeout, .timers => f.timeout ≠ .sleep ∧ f.timeout ≠ .lock
  | .timeout, .notifyQueue => ∃ call pc, f.timeout = .notify call pc ∧ pc ≠ .lock
  | .sender, .notifyQueue =>
      f.sender = .setLen ∨ f.sender = .copy ∨ f.sender = .shrink ∨ f.sender = .unlock
  | .watchdog, l => f.watchdog = .release l
  | .server, .notifyQueue | .sender, .timers => False

def wants (f : State) : Thread → Option Lock
  | .server => if f.server = .lock then some .timers else none
  | .timeout => match f.timeout with
    | .lock => some .timers
    | .notify _ .lock => some .notifyQueue
    | _ => none
  | .sender => if f.sender = .lock then some .notifyQueue else none
  | .watchdog => none

def rank : Lock → Nat
  | .timers => 0
  | .notifyQueue => 1

section Steps
variable {l : Limits} {size : Nat} {f g : State}

theorem acquired {t : Thread} {k : Lock} (h : f.acquire t k = some g) :
    f.owner k = none ∧ g = {f with owner := setAt f.owner k (some t)} := Runs.guarded h

theorem stored {start : Nat} {cells : Bytes} {next : Checker} (h : f.store start cells next = some g) :
    start + cells.length ≤ f.alloc ∧ g = {f with mem := write f.mem start cells, timeout := next} :=
  Runs.guarded h

theorem locking {t : Thread} {k : Lock} (free : f.owner k = none)
    (owners : g.owner = setAt f.owner k (some t))
    (held : ∀ u j, holds g u j ↔ holds f u j ∨ u = t ∧ j = k) :
    Locks.Moves f.owner g.owner (holds f) (holds g) :=
  .lock t k free (fun j => by rw [owners]; rfl) held

theorem unlocking {t : Thread} {k : Lock} (here : holds f t k)
    (owners : g.owner = setAt f.owner k none)
    (held : ∀ u j, holds g u j ↔ holds f u j ∧ ¬ (u = t ∧ j = k)) :
    Locks.Moves f.owner g.owner (holds f) (holds g) :=
  .unlock t k here (fun j => by rw [owners]; rfl) held

theorem serverMoves (h : serverStep f = some g) : Locks.Moves f.owner g.owner (holds f) (holds g) := by
  unfold serverStep at h
  split at h <;> rename_i here
  · cases Option.some.inj h
    exact .keep rfl (fun t k => by cases t <;> cases k <;> simp [holds,here])
  · obtain ⟨m,moved,rfl⟩ := Option.map_eq_some_iff.mp h
    obtain ⟨free,rfl⟩ := acquired moved
    exact locking free rfl (fun t k => by cases t <;> cases k <;> simp [holds,here])
  · cases Option.some.inj h
    exact .keep rfl (fun t k => by cases t <;> cases k <;> simp [holds,here])
  · cases Option.some.inj h
    exact unlocking (f := f) (t := .server) (k := .timers) (.inr here) rfl
      (fun t k => by cases t <;> cases k <;> simp [holds,here,State.release])

theorem notifyMoves {call : Notice} {pc : NotifyPc} (here : f.timeout = .notify call pc)
    (h : notifyStep size f call pc = some g) : Locks.Moves f.owner g.owner (holds f) (holds g) := by
  cases pc <;> simp only [notifyStep] at h
  case lock =>
    obtain ⟨m,moved,rfl⟩ := Option.map_eq_some_iff.mp h
    obtain ⟨free,rfl⟩ := acquired moved
    exact locking free rfl (fun t k => by cases t <;> cases k <;> simp [holds,here])
  case unlock =>
    cases Option.some.inj h
    exact unlocking (f := f) (t := .timeout) (k := .notifyQueue) ⟨call,.unlock,here,by simp⟩ rfl
      (fun t k => by cases t <;> cases k <;> simp [holds,here,State.release])
  case grow | advance =>
    cases Option.some.inj h
    exact .keep rfl (fun t k => by cases t <;> cases k <;> simp [holds,here])
  all_goals
    obtain ⟨-,rfl⟩ := stored h
    exact .keep rfl (fun t k => by cases t <;> cases k <;> simp [holds,here])

theorem checkTimersMoves (h : checkTimersStep size f = some g) :
    Locks.Moves f.owner g.owner (holds f) (holds g) := by
  unfold checkTimersStep at h
  split at h <;> rename_i here
  · cases Option.some.inj h
    exact .keep rfl (fun t k => by cases t <;> cases k <;> simp [holds,here])
  · obtain ⟨m,moved,rfl⟩ := Option.map_eq_some_iff.mp h
    obtain ⟨free,rfl⟩ := acquired moved
    exact locking free rfl (fun t k => by cases t <;> cases k <;> simp [holds,here])
  · cases Option.some.inj h
    exact .keep rfl (fun t k => by cases t <;> cases k <;> simp [holds,here])
  · exact notifyMoves here h
  · cases Option.some.inj h
    exact unlocking (f := f) (t := .timeout) (k := .timers) (by simp [holds,here]) rfl
      (fun t k => by cases t <;> cases k <;> simp [holds,here,State.release])

theorem commitMoves (h : commitStep l f = some g) : Locks.Moves f.owner g.owner (holds f) (holds g) := by
  have quiet (owners : g.owner = f.owner) (server : g.server = f.server) (timeout : g.timeout = f.timeout)
      (watchdog : g.watchdog = f.watchdog) (own : holds g .sender .notifyQueue ↔ holds f .sender .notifyQueue) :
      Locks.Moves f.owner g.owner (holds f) (holds g) := by
    refine .keep owners (fun t k => ?_)
    cases t <;> cases k <;> simp only [holds,server,timeout,watchdog]
    exact own
  unfold commitStep at h
  split at h <;> rename_i here
  · cases Option.some.inj h
    exact quiet rfl rfl rfl rfl (by cases f.sendBuf <;> simp [holds,here])
  · cases Option.some.inj h
    exact quiet rfl rfl rfl rfl (by by_cases empty : f.len = 0 <;> simp [holds,here,empty])
  · split at h <;> cases Option.some.inj h
    · exact quiet rfl rfl rfl rfl (by simp [holds,here])
    · exact quiet rfl rfl rfl rfl (by simp [holds,here])
  · cases Option.some.inj h
    exact quiet rfl rfl rfl rfl (by simp [holds,here])
  · obtain ⟨m,moved,rfl⟩ := Option.map_eq_some_iff.mp h
    obtain ⟨free,rfl⟩ := acquired moved
    exact locking free rfl (fun t k => by cases t <;> cases k <;> simp [holds,here])
  · cases Option.some.inj h
    exact quiet rfl rfl rfl rfl (by simp [holds,here])
  · obtain ⟨-,rfl⟩ := Runs.guarded h
    exact quiet rfl rfl rfl rfl (by simp [holds,here])
  · cases Option.some.inj h
    exact quiet rfl rfl rfl rfl (by simp [holds,here])
  · cases Option.some.inj h
    exact unlocking (f := f) (t := .sender) (k := .notifyQueue) (by simp [holds,here]) rfl
      (fun t k => by cases t <;> cases k <;> simp [holds,here,State.release])
  · contradiction

theorem checkLockMoves {timedOut : Bool} (h : checkLockStep f timedOut = some g) :
    Locks.Moves f.owner g.owner (holds f) (holds g) := by
  unfold checkLockStep at h
  split at h
  · rename_i here
    cases Option.some.inj h
    exact .keep rfl (fun t k => by cases t <;> cases k <;> simp [holds,here])
  · rename_i j here
    split at h
    · obtain ⟨-,moved⟩ := Option.ite_none_left_eq_some.mp h
      cases Option.some.inj moved
      exact .keep rfl (fun t k => by
        cases t <;> cases k <;> cases j <;> simp [holds,here,Watchdog.after])
    · obtain ⟨m,moved,rfl⟩ := Option.map_eq_some_iff.mp h
      obtain ⟨free,rfl⟩ := acquired moved
      exact locking free rfl (fun t k => by cases t <;> cases k <;> simp [holds,here,eq_comm])
  · rename_i j here
    cases Option.some.inj h
    exact unlocking (f := f) (t := .watchdog) (k := j) here rfl (fun t k => by
      cases t <;> cases k <;> cases j <;> simp [holds,here,State.release,Watchdog.after])

theorem stepMoves {a : Act} (h : step l size f a = some g) :
    Locks.Moves f.owner g.owner (holds f) (holds g) := by
  cases a with
  | setTimeout => exact serverMoves h
  | checkTimers => exact checkTimersMoves h
  | notify call =>
    simp only [step] at h
    split at h <;> try contradiction
    rename_i here
    cases Option.some.inj h
    exact .keep rfl (fun t k => by cases t <;> cases k <;> simp [holds,here])
  | commit => exact commitMoves h
  | upload reply =>
    simp only [step,uploadStep] at h
    split at h <;> try contradiction
    rename_i here _
    split at h <;> cases Option.some.inj h
    · exact .keep rfl (fun t k => by cases t <;> cases k <;> simp [holds,here])
    · exact .keep rfl (fun t k => by cases t <;> cases k <;> simp [holds,here])
  | checkLock timedOut => exact checkLockMoves h

end Steps

def pcOf : Sender → Pc
  | .idle => .idle
  | .testEmpty => .testEmpty
  | .testLong => .testLong
  | .report => .report
  | .lock | .setLen | .copy | .shrink => .lock
  | .unlock | .send => .send

def written (size : Nat) : NotifyPc → Option Nat
  | .copyId => some 0
  | .action => some (2 * size)
  | .separator => some (2 * size + 1)
  | .advance => some (requestSize size)
  | .lock | .grow | .unlock => none

structure Refines (l : Limits) (size : Nat) (f : State) (p : Pipe Notice UInt8) : Prop where
  owned : Locks.Owned f.owner (holds f)
  sound : Sound l p
  cells : p.queue.cells = slice f.mem 0 f.len
  fits : f.len ≤ f.alloc
  writing : ∀ call pc n, f.timeout = .notify call pc → written size pc = some n →
    f.len + requestSize size ≤ f.alloc ∧ slice f.mem f.len n = (request size call).take n
  pc : p.pc = pcOf f.sender
  sendLen : f.sender ≠ .copy → f.sender ≠ .shrink → p.sendLen = f.sendLen
  chunk : f.sender = .copy ∨ f.sender = .shrink → f.sendLen = p.chunk
  sendBuf : f.sender ≠ .shrink → p.sendBuf = f.sendBuf
  copied : f.sender = .shrink → f.sendBuf = some (p.queue.tail p.chunk.toNat)
  calls : p.calls = f.calls
  uploads : p.uploads = f.uploads
  acked : p.acked = f.acked

section Simulation
variable {l : Limits} {size : Nat} {f g : State} {p : Pipe Notice UInt8}
open Parts (Sees)

theorem initialRefines : Refines l size initial NotifyQueue.initial := by
  refine ⟨?_,initialSound l,?_,?_,?_,?_,?_,?_,?_,?_,?_,?_,?_⟩
  · intro t k
    cases t <;> cases k <;> simp [initial,holds]
  all_goals simp [initial,NotifyQueue.initial,empty,slice,pcOf]

theorem queueLength (refines : Refines l size f p) : p.queueLen = f.len := by
  rw [Pipe.queueLen,refines.cells,sliceLength]

theorem apart (refines : Refines l size f p) {call : Notice} {pc : NotifyPc}
    (here : f.timeout = .notify call pc) (inside : pc ≠ .lock) :
    f.sender ≠ .setLen ∧ f.sender ≠ .copy ∧ f.sender ≠ .shrink ∧ f.sender ≠ .unlock := by
  have own : holds f .timeout .notifyQueue := ⟨call,pc,here,inside⟩
  have other : ¬ holds f .sender .notifyQueue :=
    fun theirs => absurd (Locks.exclusive refines.owned own theirs) (by simp)
  simpa [holds,not_or] using other

theorem frame (refines : Refines l size f p) (owned : Locks.Owned g.owner (holds g))
    (cells : slice g.mem 0 g.len = slice f.mem 0 f.len) (fits : g.len ≤ g.alloc)
    (writing : ∀ call pc n, g.timeout = .notify call pc → written size pc = some n →
      g.len + requestSize size ≤ g.alloc ∧ slice g.mem g.len n = (request size call).take n)
    (same : (g.sender,g.sendBuf,g.sendLen,g.calls,g.uploads,g.acked) =
      (f.sender,f.sendBuf,f.sendLen,f.calls,f.uploads,f.acked)) : Refines l size g p := by
  simp only [Prod.mk.injEq] at same
  obtain ⟨sender,sendBuf,sendLen,calls,uploads,acked⟩ := same
  exact ⟨owned,refines.sound,refines.cells.trans cells.symm,fits,writing,by rw [sender]; exact refines.pc,
    by rw [sender,sendLen]; exact refines.sendLen,by rw [sender,sendLen]; exact refines.chunk,
    by rw [sender,sendBuf]; exact refines.sendBuf,by rw [sender,sendBuf]; exact refines.copied,
    by rw [calls]; exact refines.calls,by rw [uploads]; exact refines.uploads,
    by rw [acked]; exact refines.acked⟩

theorem storeRefines (refines : Refines l size f p) {call : Notice} {pc next : NotifyPc} {n : Nat}
    {cells : Bytes} (here : f.timeout = .notify call pc) (before : written size pc = some n)
    (after : written size next = some (n + cells.length))
    (bytes : cells = ((request size call).drop n).take cells.length)
    (h : f.store (f.len + n) cells (.notify call next) = some g)
    (owned : Locks.Owned g.owner (holds g)) : Refines l size g p := by
  obtain ⟨-,rfl⟩ := stored h
  obtain ⟨room,there⟩ := refines.writing call pc n here before
  refine frame refines owned (sliceBelow _ _ (by simp only; omega)) refines.fits ?_ rfl
  intro call' pc' m now wrote
  cases now
  cases Option.some.inj (after.symm.trans wrote)
  exact ⟨room,sliceExtend cells there bytes⟩

theorem idLength (size : Nat) (call : Notice) : (call.1.takeD (2 * size) 0).length = 2 * size :=
  List.takeD_length ..

theorem notifyRefines (limit : 0 ≤ l.maxDataLen) (refines : Refines l size f p) {call : Notice}
    {pc : NotifyPc} (here : f.timeout = .notify call pc) (h : notifyStep size f call pc = some g)
    (owned : Locks.Owned g.owner (holds g)) :
    ∃ q, Sees (NotifyQueue.step l (request size)) (fun _ _ => True) p q ∧ Refines l size g q := by
  cases pc <;> simp only [notifyStep] at h
  case lock =>
    obtain ⟨m,moved,rfl⟩ := Option.map_eq_some_iff.mp h
    obtain ⟨-,rfl⟩ := acquired moved
    refine ⟨p,.still,frame refines owned rfl refines.fits ?_ rfl⟩
    intro call pc n now wrote
    cases now
    contradiction
  case grow =>
    cases Option.some.inj h
    refine ⟨p,.still,frame refines owned rfl ?_ ?_ rfl⟩
    · exact Nat.le_trans refines.fits (growKeeps _ _ _)
    · intro call pc n now wrote
      cases now
      cases Option.some.inj wrote
      exact ⟨growEnough _ _ refines.fits,rfl⟩
  case copyId =>
    refine ⟨p,.still,storeRefines refines here rfl ?_ ?_ h owned⟩
    · rw [idLength,Nat.zero_add]; rfl
    · rw [idLength,List.drop_zero,request,List.take_left' (idLength size call)]
  case action =>
    have place : f.len + requestSize size - 2 = f.len + 2 * size := by unfold requestSize; omega
    rw [place] at h
    refine ⟨p,.still,storeRefines refines here rfl rfl ?_ h owned⟩
    rw [request,List.drop_left' (idLength size call)]; rfl
  case separator =>
    have place : f.len + requestSize size - 1 = f.len + (2 * size + 1) := by unfold requestSize; omega
    rw [place] at h
    refine ⟨p,.still,storeRefines refines here rfl ?_ ?_ h owned⟩
    · simp only [written,requestSize,List.length_singleton]; congr 1; omega
    · rw [request,← List.drop_drop,List.drop_left' (idLength size call)]; rfl
  case advance =>
    cases Option.some.inj h
    obtain ⟨room,there⟩ := refines.writing call .advance _ here rfl
    have elsewhere := apart refines here (by simp)
    rw [List.take_of_length_le (Nat.le_of_eq (Station.requestLength call))] at there
    have moved : NotifyQueue.step l (request size) p (.notify call) =
        some {p with queue := p.queue.append (request size call), calls := p.calls ++ [call]} := rfl
    refine ⟨_,.moved (.notify call) trivial moved,owned,stepSound limit refines.sound moved,?_,room,?_,
      refines.pc,refines.sendLen,?_,refines.sendBuf,?_,?_,refines.uploads,refines.acked⟩
    · rw [appendCells,refines.cells,sliceAppend,Nat.zero_add,there]
    · intro call pc n now wrote
      cases now
      contradiction
    · exact fun copying => copying.elim (fun at_ => absurd at_ elsewhere.2.1)
        (fun at_ => absurd at_ elsewhere.2.2.1)
    · exact fun at_ => absurd at_ elsewhere.2.2.1
    · simp only [refines.calls]
  case unlock =>
    cases Option.some.inj h
    exact ⟨p,.still,frame refines owned rfl refines.fits (by simp) rfl⟩

theorem senderRefines (refines : Refines l size f p) {q : Pipe Notice UInt8}
    (owned : Locks.Owned g.owner (holds g)) (sound : Sound l q)
    (same : (g.mem,g.len,g.alloc,g.timeout) = (f.mem,f.len,f.alloc,f.timeout))
    (queue : q.queue = p.queue) (pc : q.pc = pcOf g.sender)
    (outside : g.sender ≠ .copy ∧ g.sender ≠ .shrink)
    (sendLen : q.sendLen = g.sendLen) (sendBuf : q.sendBuf = g.sendBuf)
    (history : (q.calls,q.uploads,q.acked) = (g.calls,g.uploads,g.acked)) : Refines l size g q := by
  simp only [Prod.mk.injEq] at same history
  obtain ⟨mem,len,alloc,timeout⟩ := same
  obtain ⟨calls,uploads,acked⟩ := history
  exact ⟨owned,sound,by rw [queue,mem,len]; exact refines.cells,by rw [len,alloc]; exact refines.fits,
    by rw [timeout,len,alloc,mem]; exact refines.writing,pc,fun _ _ => sendLen,
    fun at_ => (at_.elim outside.1 outside.2).elim,fun _ => sendBuf,fun at_ => (outside.2 at_).elim,
    calls,uploads,acked⟩

theorem commitRefines (limit : 0 ≤ l.maxDataLen) (refines : Refines l size f p)
    (h : commitStep l f = some g) (owned : Locks.Owned g.owner (holds g)) :
    ∃ q, Sees (NotifyQueue.step l (request size)) (fun _ _ => True) p q ∧ Refines l size g q := by
  have len := queueLength refines
  have sound {b q} (h : NotifyQueue.step l (request size) p b = some q) : Sound l q :=
    stepSound limit refines.sound h
  have history : (p.calls,p.uploads,p.acked) = (f.calls,f.uploads,f.acked) := by
    rw [refines.calls,refines.uploads,refines.acked]
  have pc := refines.pc
  unfold commitStep at h
  split at h <;> rename_i here <;> rw [here] at pc
  · have sendBuf := refines.sendBuf (by simp [here])
    cases Option.some.inj h
    refine ⟨{p with pc := if p.sendBuf.isSome then .send else .testEmpty},
      .moved .enter trivial (if_pos pc),?_⟩
    refine senderRefines refines owned (sound (b := .enter) (if_pos pc)) rfl rfl ?_ ?_
      (refines.sendLen (by simp [here]) (by simp [here])) sendBuf history
    · simp only [sendBuf]; cases f.sendBuf <;> rfl
    · cases f.sendBuf <;> simp
  · cases Option.some.inj h
    refine ⟨{p with pc := if p.queueLen = 0 then .idle else .testLong},
      .moved .testEmpty trivial (if_pos pc),?_⟩
    refine senderRefines refines owned (sound (b := .testEmpty) (if_pos pc)) rfl rfl ?_ ?_
      (refines.sendLen (by simp [here]) (by simp [here])) (refines.sendBuf (by simp [here])) history
    · simp only [len]; split <;> rfl
    · simp only; split <;> simp
  · have moved : NotifyQueue.step l (request size) p .testLong = some (if (p.queueLen : Int) > l.maxDataLen
        then {p with pc := .report} else {p with sendLen := 0, pc := .lock}) := if_pos pc
    have next := sound moved
    have sendBuf := refines.sendBuf (by simp [here])
    split at h <;> rename_i long <;> cases Option.some.inj h <;> rw [← len] at long
    · rw [if_pos long] at moved next
      exact ⟨_,.moved .testLong trivial moved,senderRefines refines owned next rfl rfl rfl (by simp)
        (refines.sendLen (by simp [here]) (by simp [here])) sendBuf history⟩
    · rw [if_neg long] at moved next
      exact ⟨_,.moved .testLong trivial moved,
        senderRefines refines owned next rfl rfl rfl (by simp) rfl sendBuf history⟩
  · cases Option.some.inj h
    refine ⟨{p with sendLen := l.maxDataLen, pc := .lock},.moved .setLimit trivial (if_pos pc),?_⟩
    exact senderRefines refines owned (sound (b := .setLimit) (if_pos pc)) rfl rfl rfl (by simp) rfl
      (refines.sendBuf (by simp [here])) history
  · obtain ⟨m,moved,rfl⟩ := Option.map_eq_some_iff.mp h
    obtain ⟨-,rfl⟩ := acquired moved
    exact ⟨p,.still,senderRefines refines owned refines.sound rfl rfl pc (by simp)
      (refines.sendLen (by simp [here]) (by simp [here])) (refines.sendBuf (by simp [here])) history⟩
  · cases Option.some.inj h
    have sendLen := refines.sendLen (by simp [here]) (by simp [here])
    have sendBuf := refines.sendBuf (by simp [here])
    refine ⟨p,.still,owned,refines.sound,refines.cells,refines.fits,refines.writing,pc,by simp,
      fun _ => ?_,fun _ => sendBuf,by simp,refines.calls,refines.uploads,refines.acked⟩
    simp only [Pipe.chunk,sendLen,len]
  · obtain ⟨inside,rfl⟩ := Runs.guarded h
    have chunk := refines.chunk (.inl here)
    refine ⟨p,.still,owned,refines.sound,refines.cells,refines.fits,refines.writing,pc,by simp,
      fun _ => chunk,by simp,fun _ => ?_,refines.calls,refines.uploads,refines.acked⟩
    have count : f.sendLen.toNat ≤ f.len := by omega
    rw [Buffer.tail,refines.cells,sliceLength,← chunk,sliceDrop _ _ (Nat.sub_le ..),Nat.zero_add,
      Nat.sub_sub_self count]
  · cases Option.some.inj h
    have chunk := refines.chunk (.inr here)
    have bounds := chunkBounds limit refines.sound pc
    have moved : NotifyQueue.step l (request size) p .dequeue = some {p with
        queue := p.queue.shrink p.chunk.toNat
        sendBuf := some (p.queue.tail p.chunk.toNat)
        sendLen := p.chunk
        pc := .send} := (if_pos pc).trans (congrArg some (if_pos ⟨by omega,bounds.2⟩))
    refine ⟨_,.moved .dequeue trivial moved,owned,sound moved,?_,?_,?_,rfl,
      fun _ _ => chunk.symm,by simp,fun _ => (refines.copied here).symm,by simp,refines.calls,
      refines.uploads,refines.acked⟩
    · simp only [Buffer.shrink]
      rw [refines.cells,sliceLength,chunk,sliceTake _ _ (Nat.sub_le ..)]
    · exact Nat.le_trans (Nat.sub_le ..) refines.fits
    · -- notify is not writing, for this thread holds the lock
      intro call point n now wrote
      have inside : point ≠ .lock := by rintro rfl; contradiction
      exact absurd here (apart refines now inside).2.2.1
  · cases Option.some.inj h
    exact ⟨p,.still,senderRefines refines owned refines.sound rfl rfl pc (by simp)
      (refines.sendLen (by simp [here]) (by simp [here])) (refines.sendBuf (by simp [here])) history⟩
  · contradiction

theorem uploadRefines (limit : 0 ≤ l.maxDataLen) (refines : Refines l size f p) {reply : Reply}
    (h : uploadStep l f reply = some g) (owned : Locks.Owned g.owner (holds g)) :
    ∃ q, Sees (NotifyQueue.step l (request size)) (fun _ _ => True) p q ∧ Refines l size g q := by
  unfold uploadStep at h
  split at h <;> try contradiction
  rename_i body here pending
  have pc : p.pc = .send := by rw [refines.pc,here]; rfl
  have sendBuf := refines.sendBuf (by simp [here])
  have sendLen := refines.sendLen (by simp [here]) (by simp [here])
  have moved : NotifyQueue.step l (request size) p (.upload reply) = some (if acknowledged l reply then
      {p with sendBuf := none, pc := .idle, uploads := p.uploads ++ [body], acked := p.acked ++ [body]}
      else {p with pc := .idle, uploads := p.uploads ++ [body]}) := by
    simp only [NotifyQueue.step,pc,sendBuf,pending]
  have next := stepSound limit refines.sound moved
  split at h <;> rename_i ack <;> cases Option.some.inj h
  · rw [if_pos ack] at moved next
    exact ⟨_,.moved (.upload reply) trivial moved,senderRefines refines owned next rfl rfl rfl (by simp)
      sendLen rfl (by rw [refines.calls,refines.uploads,refines.acked])⟩
  · rw [if_neg ack] at moved next
    exact ⟨_,.moved (.upload reply) trivial moved,senderRefines refines owned next rfl rfl rfl (by simp)
      sendLen sendBuf (by rw [refines.calls,refines.uploads,refines.acked])⟩

theorem stepRefines (limit : 0 ≤ l.maxDataLen) (refines : Refines l size f p) {a : Act}
    (h : step l size f a = some g) :
    ∃ q, Sees (NotifyQueue.step l (request size)) (fun _ _ => True) p q ∧ Refines l size g q := by
  have owned := Locks.movesOwned refines.owned (stepMoves h)
  cases a with
  | setTimeout =>
    refine ⟨p,.still,?_⟩
    simp only [step,serverStep] at h
    split at h
    case h_2 =>
      obtain ⟨m,moved,rfl⟩ := Option.map_eq_some_iff.mp h
      obtain ⟨-,rfl⟩ := acquired moved
      exact frame refines owned rfl refines.fits refines.writing rfl
    all_goals
      cases Option.some.inj h
      exact frame refines owned rfl refines.fits refines.writing rfl
  | checkTimers =>
    simp only [step,checkTimersStep] at h
    split at h <;> rename_i here
    case h_4 => exact notifyRefines limit refines here h owned
    case h_2 =>
      obtain ⟨m,moved,rfl⟩ := Option.map_eq_some_iff.mp h
      obtain ⟨-,rfl⟩ := acquired moved
      exact ⟨p,.still,frame refines owned rfl refines.fits (by simp) rfl⟩
    all_goals
      cases Option.some.inj h
      exact ⟨p,.still,frame refines owned rfl refines.fits (by simp) rfl⟩
  | notify call =>
    simp only [step] at h
    split at h <;> try contradiction
    cases Option.some.inj h
    refine ⟨p,.still,frame refines owned rfl refines.fits ?_ rfl⟩
    intro call pc n now wrote
    cases now
    contradiction
  | commit => exact commitRefines limit refines h owned
  | upload reply => exact uploadRefines limit refines h owned
  | checkLock timedOut =>
    refine ⟨p,.still,?_⟩
    simp only [step,checkLockStep] at h
    split at h
    · cases Option.some.inj h
      exact frame refines owned rfl refines.fits refines.writing rfl
    · split at h
      · obtain ⟨-,moved⟩ := Option.ite_none_left_eq_some.mp h
        cases Option.some.inj moved
        exact frame refines owned rfl refines.fits refines.writing rfl
      · obtain ⟨m,moved,rfl⟩ := Option.map_eq_some_iff.mp h
        obtain ⟨-,rfl⟩ := acquired moved
        exact frame refines owned rfl refines.fits refines.writing rfl
    · cases Option.some.inj h
      exact frame refines owned rfl refines.fits refines.writing rfl

theorem runRefines (limit : 0 ≤ l.maxDataLen) {acts : List Act}
    (run : Runs.exec (step l size) initial acts = some f) :
    ∃ bs p, Runs.exec (NotifyQueue.step l (request size)) NotifyQueue.initial bs = some p ∧
      Refines l size f p := by
  obtain ⟨bs,p,runs,-,refines⟩ := Parts.relatedRun (fun _ _ _ _ refines _ h => stepRefines limit refines h)
    initialRefines (Runs.meetsTrue _ _) run
  exact ⟨bs,p,runs,refines⟩

/-- Whatever the order of the statements of the four threads, the queue in memory, the uploads
and the acknowledged bodies are those of a run in which notify and the dequeue are one step
each; the queue stays inside its allocation, and every notified byte is in one place. -/
theorem interleavingsRefine (conf : Config.Conf) (size : Nat) (limit : 0 ≤ (limits conf).maxDataLen)
    (acts : List Act) (f : State) (run : Runs.exec (step (limits conf) size) initial acts = some f) :
    ∃ bs p, Runs.exec (NotifyQueue.step (limits conf) (request size)) NotifyQueue.initial bs = some p ∧
      p.queue.cells = slice f.mem 0 f.len ∧ f.len ≤ f.alloc ∧
      (p.calls,p.uploads,p.acked) = (f.calls,f.uploads,f.acked) ∧
      Conservation.EachOnce (request size) p := by
  obtain ⟨bs,p,runs,refines⟩ := runRefines limit run
  exact ⟨bs,p,runs,refines.cells,refines.fits,by rw [refines.calls,refines.uploads,refines.acked],
    (Conservation.runEachOnce limit runs).2⟩

-- The sender looks at the queue while notify writes to it, and takes it while notify waits.
def halfNotified : List Act :=
  [.checkTimers,.checkTimers,.notify ([48,53],true),.checkTimers,.checkTimers,.checkTimers,.checkTimers,
    .commit,.commit,.checkTimers,.checkTimers,.commit,.commit,.commit,.checkTimers,
    .notify ([48,54],false),.commit,.commit,.commit,.commit,.commit,.checkTimers,.upload ⟨-1,none⟩]

theorem interleavingsRefineHalfNotified : ∃ f,
    Runs.exec (step (limits Station.gate) 1) initial halfNotified = some f ∧
    f.uploads = [ascii "051."] ∧ ∃ bs p,
      Runs.exec (NotifyQueue.step (limits Station.gate) (request 1)) NotifyQueue.initial bs = some p ∧
      p.queue.cells = slice f.mem 0 f.len ∧ f.len ≤ f.alloc ∧
      (p.calls,p.uploads,p.acked) = (f.calls,f.uploads,f.acked) ∧
      Conservation.EachOnce (request 1) p := by
  have seen : (Runs.exec (step (limits Station.gate) 1) initial halfNotified).map State.uploads =
      some [ascii "051."] := by decide +kernel
  obtain ⟨f,run,uploads⟩ := Option.map_eq_some_iff.mp seen
  exact ⟨f,run,uploads,interleavingsRefine Station.gate 1 (by decide) halfNotified f run⟩

end Simulation

section Waiting
variable {l : Limits} {size : Nat} {f g : State} {p : Pipe Notice UInt8}

theorem rankBelow (k : Lock) : rank k < 2 := by cases k <;> decide

theorem lockOrder (f : State) : Locks.Ordered (holds f) (wants f) rank := by
  intro t k wanted h held
  cases t with
  | server =>
    obtain ⟨here,same⟩ := Option.ite_none_right_eq_some.mp wanted
    cases h <;> simp [holds,here] at held
  | timeout =>
    simp only [wants] at wanted
    split at wanted <;> rename_i here <;> cases wanted
    · cases h <;> simp [holds,here] at held
    · cases h
      · simp [holds,here] at held
      · exact Nat.zero_lt_one
  | sender =>
    obtain ⟨here,same⟩ := Option.ite_none_right_eq_some.mp wanted
    cases h <;> simp [holds,here] at held
  | watchdog => contradiction

theorem takes {t : Thread} {k : Lock} (free : ¬ Locks.Blocked f.owner (wants f) t) (wanted : wants f t = some k) :
    f.acquire t k = some {f with owner := setAt f.owner k (some t)} := by
  refine if_pos (Classical.byContradiction (fun taken => free ⟨k,wanted,taken⟩))

theorem notifyCanStep (refines : Refines l size f p) (free : ¬ Locks.Blocked f.owner (wants f) .timeout)
    {call : Notice} {pc : NotifyPc} (here : f.timeout = .notify call pc) :
    ∃ g, notifyStep size f call pc = some g := by
  cases pc
  case lock => exact ⟨_,by rw [notifyStep,takes free (by simp [wants,here])]; rfl⟩
  case grow | advance | unlock => exact ⟨_,rfl⟩
  all_goals
    obtain ⟨room,-⟩ := refines.writing call _ _ here rfl
    unfold requestSize at room
    refine ⟨_,if_pos ?_⟩
    simp only [idLength,List.length_singleton,requestSize]
    omega

theorem commitCanStep (limit : 0 ≤ l.maxDataLen) (refines : Refines l size f p)
    (free : ¬ Locks.Blocked f.owner (wants f) .sender) :
    ∃ a g, Act.thread a = .sender ∧ step l size f a = some g := by
  cases here : f.sender
  case lock =>
    exact ⟨.commit,_,rfl,by rw [step,commitStep,here]; simp only; rw [takes free (by simp [wants,here])]; rfl⟩
  case copy =>
    have bounds := chunkBounds limit refines.sound (by rw [refines.pc,here]; rfl)
    rw [← refines.chunk (.inl here),queueLength refines] at bounds
    exact ⟨.commit,_,rfl,by rw [step,commitStep,here]; exact if_pos ⟨by omega,bounds.2⟩⟩
  case send =>
    have pending := refines.sound.sending (by rw [refines.pc,here]; rfl)
    rw [refines.sendBuf (by simp [here])] at pending
    obtain ⟨body,buf⟩ := Option.isSome_iff_exists.mp pending
    exact ⟨.upload ⟨-1,none⟩,{f with sender := .idle, uploads := f.uploads ++ [body]},rfl,by
      rw [step,uploadStep,here,buf]; rfl⟩
  case testLong =>
    by_cases long : (f.len : Int) > l.maxDataLen
    · exact ⟨.commit,_,rfl,by rw [step,commitStep,here]; exact if_pos long⟩
    · exact ⟨.commit,_,rfl,by rw [step,commitStep,here]; exact if_neg long⟩
  all_goals exact ⟨.commit,_,rfl,by rw [step,commitStep,here]⟩

theorem canStep (limit : 0 ≤ l.maxDataLen) (refines : Refines l size f p) {t : Thread}
    (free : ¬ Locks.Blocked f.owner (wants f) t) : ∃ a g, Act.thread a = t ∧ step l size f a = some g := by
  cases t with
  | server =>
    refine ⟨.setTimeout,?_⟩
    cases here : f.server
    case lock =>
      exact ⟨_,rfl,by rw [step,serverStep,here]; simp only; rw [takes free (by simp [wants,here])]; rfl⟩
    all_goals exact ⟨_,rfl,by rw [step,serverStep,here]⟩
  | timeout =>
    refine ⟨.checkTimers,?_⟩
    cases here : f.timeout
    case lock =>
      exact ⟨_,rfl,by rw [step,checkTimersStep,here]; simp only; rw [takes free (by simp [wants,here])]; rfl⟩
    case notify call pc =>
      obtain ⟨g,moved⟩ := notifyCanStep refines free here
      exact ⟨g,rfl,by rw [step,checkTimersStep,here]; exact moved⟩
    all_goals exact ⟨_,rfl,by rw [step,checkTimersStep,here]⟩
  | sender => exact commitCanStep limit refines free
  | watchdog =>
    cases here : f.watchdog with
    | sleep => exact ⟨.checkLock false,_,rfl,by rw [step,checkLockStep,here]⟩
    | release k => exact ⟨.checkLock false,_,rfl,by rw [step,checkLockStep,here]⟩
    | acquire k =>
      by_cases taken : f.owner k = none
      · exact ⟨.checkLock false,_,rfl,by
          rw [step,checkLockStep,here]; simp only [State.acquire,if_pos taken]; rfl⟩
      · exact ⟨.checkLock true,_,rfl,by
          rw [step,checkLockStep,here]; exact (if_pos rfl).trans (if_neg taken)⟩

def Moving (l : Limits) (size : Nat) (f : State) : Prop :=
  (∀ t u k, holds f t k → holds f u k → t = u) ∧
  ∀ t, ∃ u, Relation.ReflTransGen (Locks.WaitsFor f.owner (wants f)) t u ∧
    ∃ a g, Act.thread a = u ∧ step l size f a = some g

/-- In every state of every run no two threads are inside one lock, and each thread that cannot
go on waits, through the owners of the locks, for a thread that can. -/
theorem neverDeadlocked (conf : Config.Conf) (size : Nat) (limit : 0 ≤ (limits conf).maxDataLen)
    (acts : List Act) (f : State) (run : Runs.exec (step (limits conf) size) initial acts = some f) :
    Moving (limits conf) size f := by
  obtain ⟨bs,p,-,refines⟩ := runRefines limit run
  refine ⟨fun t u k => Locks.exclusive refines.owned,fun t => ?_⟩
  obtain ⟨u,chain,free⟩ := Locks.chainEnds refines.owned (lockOrder f) rankBelow t
  exact ⟨u,chain,canStep limit refines free⟩

-- The server waits for check_timers, and check_timers in notify for the sender.
def twoWaits : List Act :=
  [.checkTimers,.checkTimers,.notify ([48,53],true),.checkTimers,.checkTimers,.checkTimers,.checkTimers,
    .checkTimers,.checkTimers,.checkTimers,.commit,.commit,.commit,.commit,.notify ([48,54],false),
    .setTimeout,.checkLock false,.checkLock true]

theorem neverDeadlockedTwoWaits : ∃ f,
    Runs.exec (step (limits Station.gate) 1) initial twoWaits = some f ∧
    f.len = 4 ∧ Locks.WaitsFor f.owner (wants f) .server .timeout ∧
    Locks.WaitsFor f.owner (wants f) .timeout .sender ∧ Moving (limits Station.gate) 1 f := by
  have seen : (Runs.exec (step (limits Station.gate) 1) initial twoWaits).map (fun f =>
      (f.len,f.owner .timers,f.owner .notifyQueue,wants f .server,wants f .timeout)) =
      some (4,some .timeout,some .sender,some .timers,some .notifyQueue) := by decide +kernel
  obtain ⟨f,run,same⟩ := Option.map_eq_some_iff.mp seen
  simp only [Prod.mk.injEq] at same
  obtain ⟨len,timers,notifyQueue,server,timeout⟩ := same
  exact ⟨f,run,len,⟨_,server,timers⟩,⟨_,timeout,notifyQueue⟩,
    neverDeadlocked Station.gate 1 (by decide) twoWaits f run⟩

def left (f : State) : Thread → Nat
  | .timeout => match f.timeout with
    | .notify _ .grow => 6
    | .notify _ .copyId => 5
    | .notify _ .action => 4
    | .notify _ .separator => 3
    | .notify _ .advance => 2
    | .notify _ .unlock => 1
    | _ => 0
  | .sender => match f.sender with
    | .setLen => 4
    | .copy => 3
    | .shrink => 2
    | .unlock => 1
    | _ => 0
  | .watchdog => if f.watchdog = .release .notifyQueue then 1 else 0
  | .server => 0

theorem leftBounded (f : State) (t : Thread) : left f t ≤ 6 := by
  unfold left
  split
  · split <;> omega
  · split <;> omega
  · split <;> omega
  · omega

theorem leftHolding {t : Thread} (inside : holds f t .notifyQueue) : 0 < left f t := by
  cases t with
  | server => exact inside.elim
  | timeout =>
    obtain ⟨call,pc,here,other⟩ := inside
    simp only [left,here]
    cases pc <;> first | exact absurd rfl other | simp
  | sender =>
    obtain here | here | here | here := inside <;> simp [left,here]
  | watchdog =>
    have here : f.watchdog = .release .notifyQueue := inside
    simp [left,here]

theorem serverPoints (h : serverStep f = some g) :
    (g.timeout,g.sender,g.watchdog) = (f.timeout,f.sender,f.watchdog) := by
  unfold serverStep at h
  split at h
  case h_2 =>
    obtain ⟨m,moved,rfl⟩ := Option.map_eq_some_iff.mp h
    obtain ⟨-,rfl⟩ := acquired moved
    rfl
  all_goals cases Option.some.inj h; rfl

theorem notifyPoints {call : Notice} {pc : NotifyPc} (h : notifyStep size f call pc = some g) :
    (g.sender,g.watchdog) = (f.sender,f.watchdog) := by
  cases pc <;> simp only [notifyStep] at h
  case lock =>
    obtain ⟨m,moved,rfl⟩ := Option.map_eq_some_iff.mp h
    obtain ⟨-,rfl⟩ := acquired moved
    rfl
  case grow | advance | unlock => cases Option.some.inj h; rfl
  all_goals obtain ⟨-,rfl⟩ := stored h; rfl

theorem checkTimersPoints (h : checkTimersStep size f = some g) :
    (g.sender,g.watchdog) = (f.sender,f.watchdog) := by
  unfold checkTimersStep at h
  split at h
  case h_4 => exact notifyPoints h
  case h_2 =>
    obtain ⟨m,moved,rfl⟩ := Option.map_eq_some_iff.mp h
    obtain ⟨-,rfl⟩ := acquired moved
    rfl
  all_goals cases Option.some.inj h; rfl

theorem commitPoints (h : commitStep l f = some g) :
    (g.timeout,g.watchdog) = (f.timeout,f.watchdog) := by
  unfold commitStep at h
  split at h
  case h_5 =>
    obtain ⟨m,moved,rfl⟩ := Option.map_eq_some_iff.mp h
    obtain ⟨-,rfl⟩ := acquired moved
    rfl
  case h_7 => obtain ⟨-,rfl⟩ := Runs.guarded h; rfl
  case h_3 => split at h <;> cases Option.some.inj h <;> rfl
  all_goals first | contradiction | (cases Option.some.inj h; rfl)

theorem uploadPoints {reply : Reply} (h : uploadStep l f reply = some g) :
    (g.timeout,g.watchdog) = (f.timeout,f.watchdog) := by
  unfold uploadStep at h
  split at h <;> try contradiction
  split at h <;> cases Option.some.inj h <;> rfl

theorem checkLockPoints {timedOut : Bool} (h : checkLockStep f timedOut = some g) :
    (g.timeout,g.sender) = (f.timeout,f.sender) := by
  unfold checkLockStep at h
  split at h
  · cases Option.some.inj h; rfl
  · split at h
    · obtain ⟨-,moved⟩ := Option.ite_none_left_eq_some.mp h
      cases Option.some.inj moved; rfl
    · obtain ⟨m,moved,rfl⟩ := Option.map_eq_some_iff.mp h
      obtain ⟨-,rfl⟩ := acquired moved
      rfl
  · cases Option.some.inj h; rfl

theorem leftOther {t : Thread} {a : Act} (other : a.thread ≠ t) (h : step l size f a = some g) :
    left g t = left f t := by
  cases a with
  | setTimeout =>
    obtain ⟨timeout,sender,watchdog⟩ : _ ∧ _ ∧ _ := by simpa using serverPoints h
    cases t <;> simp only [left,timeout,sender,watchdog]
  | checkTimers =>
    obtain ⟨sender,watchdog⟩ : _ ∧ _ := by simpa using checkTimersPoints h
    cases t <;> first | exact absurd rfl other | simp only [left,sender,watchdog]
  | notify call =>
    simp only [step] at h
    split at h <;> try contradiction
    cases Option.some.inj h
    cases t <;> first | exact absurd rfl other | rfl
  | commit =>
    obtain ⟨timeout,watchdog⟩ : _ ∧ _ := by simpa using commitPoints h
    cases t <;> first | exact absurd rfl other | simp only [left,timeout,watchdog]
  | upload reply =>
    obtain ⟨timeout,watchdog⟩ : _ ∧ _ := by simpa using uploadPoints h
    cases t <;> first | exact absurd rfl other | simp only [left,timeout,watchdog]
  | checkLock timedOut =>
    obtain ⟨timeout,sender⟩ : _ ∧ _ := by simpa using checkLockPoints h
    cases t <;> first | exact absurd rfl other | simp only [left,timeout,sender]

theorem leftOwn {t : Thread} {a : Act} (inside : holds f t .notifyQueue) (own : a.thread = t)
    (h : step l size f a = some g) : left g t < left f t := by
  subst own
  cases a with
  | setTimeout => exact inside.elim
  | checkTimers =>
    obtain ⟨call,pc,here,other⟩ := inside
    simp only [step,checkTimersStep,here] at h
    simp only [left,Act.thread,here]
    cases pc <;> simp only [notifyStep] at h
    case lock => exact absurd rfl other
    case grow | advance | unlock => cases Option.some.inj h; simp
    all_goals obtain ⟨-,rfl⟩ := stored h; simp
  | notify call =>
    obtain ⟨call,pc,here,other⟩ := inside
    simp [step,here] at h
  | commit =>
    simp only [step,commitStep] at h
    simp only [left,Act.thread]
    obtain here | here | here | here := inside <;> simp only [here] at h ⊢
    · cases Option.some.inj h; simp
    · obtain ⟨-,rfl⟩ := Runs.guarded h; simp
    · cases Option.some.inj h; simp
    · cases Option.some.inj h; simp
  | upload reply =>
    simp only [step,uploadStep] at h
    split at h <;> try contradiction
    rename_i here _
    obtain at_ | at_ | at_ | at_ := inside <;> simp [here] at at_
  | checkLock timedOut =>
    have here : f.watchdog = .release .notifyQueue := inside
    simp only [step,checkLockStep,here] at h
    cases Option.some.inj h
    simp [left,Act.thread,here,Watchdog.after]

/-- The owner of lock_notify_queue always has a next statement, and it is out of the lock
before its seventh, whatever the other threads do meanwhile. -/
theorem notifyQueueHeldShortly (conf : Config.Conf) (size : Nat)
    (limit : 0 ≤ (limits conf).maxDataLen) (acts : List Act) (f : State)
    (run : Runs.exec (step (limits conf) size) initial acts = some f) (t : Thread)
    (own : f.owner .notifyQueue = some t) :
    (∃ a g, Act.thread a = t ∧ step (limits conf) size f a = some g) ∧
    ∀ later g, Runs.exec (step (limits conf) size) f later = some g →
      Runs.Always (step (limits conf) size) (fun s => s.owner .notifyQueue = some t) f later →
      later.countP (fun a => a.thread = t) < 6 := by
  obtain ⟨bs,p,-,refines⟩ := runRefines limit run
  refine ⟨?_,?_⟩
  · refine canStep limit refines (Locks.ownerMoves refines.owned (lockOrder f) own ?_)
    intro k; cases k <;> decide
  · intro later g runs held
    have inLock : Runs.Meets (step (limits conf) size) (fun s _ => s.owner .notifyQueue = some t) f later :=
      Runs.alwaysBefore held
    have counted := Runs.countedDown (I := fun s => Locks.Owned s.owner (holds s))
      (fun s => left s t) (fun a => decide (Act.thread a = t))
      (fun _ _ _ owned _ h => Locks.movesOwned owned (stepMoves h))
      (fun s a g owned own mine h => leftOwn ((owned t _).mp own) (of_decide_eq_true mine) h)
      (fun s a g owned own other h => Nat.le_of_eq (leftOther (of_decide_eq_false other) h))
      refines.owned inLock runs
    have still := Runs.invariant (fun _ _ _ owned h => Locks.movesOwned owned (stepMoves h))
      refines.owned runs
    have kept := Runs.alwaysLast held runs
    have inside := leftHolding ((still t _).mp kept)
    have most := leftBounded f t
    omega

theorem notifyQueueHeldShortlyTwoWaits : ∃ f,
    Runs.exec (step (limits Station.gate) 1) initial twoWaits = some f ∧
    (∃ a g, Act.thread a = .sender ∧ step (limits Station.gate) 1 f a = some g) ∧
    ∀ later g, Runs.exec (step (limits Station.gate) 1) f later = some g →
      Runs.Always (step (limits Station.gate) 1) (fun s => s.owner .notifyQueue = some .sender) f later →
      later.countP (fun a => a.thread = .sender) < 6 := by
  have seen : (Runs.exec (step (limits Station.gate) 1) initial twoWaits).map
      (fun f => f.owner .notifyQueue) = some (some .sender) := by decide +kernel
  obtain ⟨f,run,own⟩ := Option.map_eq_some_iff.mp seen
  exact ⟨f,run,notifyQueueHeldShortly Station.gate 1 (by decide) twoWaits f run .sender own⟩

end Waiting

end RfidStation.LockedQueue
