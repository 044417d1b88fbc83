import RfidStation.Lib.Blocks
import RfidStation.Lib.Runs

/-! The server thread of the merger (msg_loop in server.c) over its connections. Role `false`
is the master, at fds[0], and `true` the slave, at fds[1]. A connection holds the cells that
were sent and not yet read. `taken` is history: the packets read from each role. -/
namespace RfidStation.MsgLoop
open Blocks

structure Conn (β : Type) where
  role : Bool
  unread : List β
  ended : Bool
  failed : Bool
  deriving DecidableEq, Repr

/- Program points of msg_loop: poll; the branch of the listening socket; the two turns of
the reading loop. `stopped` is after its return. -/
inductive Pc where
  | poll | accept | read (i : Bool) | stopped
  deriving DecidableEq, Repr

structure Loop (β : Type) where
  conns : Nat → Conn β
  opened : Nat
  backlog : List Nat
  fds : Bool → Option Nat
  listenReady : Bool
  ready : Bool → Bool
  pc : Pc
  taken : Bool → List (List β)

variable {β : Type}

def setAt {ι α : Type} [DecidableEq ι] (f : ι → α) (i : ι) (a : α) : ι → α :=
  fun j => if j = i then a else f j

@[simp] theorem setAtSame {ι α : Type} [DecidableEq ι] (f : ι → α) (i : ι) (a : α) :
    setAt f i a i = a := if_pos rfl

theorem setAtOther {ι α : Type} [DecidableEq ι] (f : ι → α) {i j : ι} (a : α) (other : j ≠ i) :
    setAt f i a j = f j := if_neg other

def initial : Loop β :=
  ⟨fun _ => ⟨false,[],false,false⟩,0,[],fun _ => none,false,fun _ => false,.poll,fun _ => []⟩

def connect (s : Loop β) (role : Bool) : Loop β :=
  {s with
    conns := setAt s.conns s.opened ⟨role,[],false,false⟩
    opened := s.opened + 1
    backlog := s.backlog ++ [s.opened]}

def deliver (s : Loop β) (fd : Nat) (cells : List β) : Loop β :=
  {s with conns := setAt s.conns fd {s.conns fd with unread := (s.conns fd).unread ++ cells}}

def finish (s : Loop β) (fd : Nat) : Loop β :=
  {s with conns := setAt s.conns fd {s.conns fd with ended := true}}

def readable (s : Loop β) (i : Bool) : Bool :=
  match s.fds i with
  | some fd => !(s.conns fd).unread.isEmpty || (s.conns fd).ended
  | none => false

def erroneous (s : Loop β) (i : Bool) : Bool :=
  match s.fds i with
  | some fd => (s.conns fd).failed
  | none => false

def poll (s : Loop β) : Option (Loop β) :=
  if erroneous s false || erroneous s true then some {s with pc := .stopped}
  else if !s.backlog.isEmpty || readable s false || readable s true then
    some {s with listenReady := !s.backlog.isEmpty, ready := readable s, pc := .accept}
  else none

def accept (s : Loop β) : Option (Loop β) :=
  if s.listenReady then
    match s.backlog with
    | newfd :: rest => some {s with
        backlog := rest
        fds := setAt s.fds (s.conns newfd).role (some newfd)
        pc := .read false}
    | [] => none
  else some {s with pc := .read false}

def afterRead (i : Bool) : Pc := if i then .poll else .read true

-- recvn returns a whole packet, or less at the end of the stream, and waits otherwise.
def readFd (size : Nat) (s : Loop β) (i : Bool) : Option (Loop β) :=
  if s.ready i then
    match s.fds i with
    | none => some {s with pc := .stopped}
    | some fd =>
      let conn := s.conns fd
      if conn.failed then some {s with pc := .stopped}
      else if size ≤ conn.unread.length then some {s with
        conns := setAt s.conns fd {conn with unread := conn.unread.drop size}
        pc := afterRead i
        taken := setAt s.taken i (s.taken i ++ [conn.unread.take size])}
      else if conn.ended then some {s with fds := setAt s.fds i none, pc := afterRead i}
      else none
  else some {s with pc := afterRead i}

def step (size : Nat) (s : Loop β) : Option (Loop β) :=
  match s.pc with
  | .poll => poll s
  | .accept => accept s
  | .read i => readFd size s i
  | .stopped => none

end RfidStation.MsgLoop
