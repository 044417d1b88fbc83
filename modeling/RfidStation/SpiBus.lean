import RfidStation.Nrf
import RfidStation.Lib.ChipSelect
import RfidStation.Lib.Runs
import Mathlib.Logic.Function.Basic

/-! The SPI bus of the receiver (receive/nrf.c, receiver.c): every CSN edge and every byte or
buffer transfer of the switching thread (`false`) and of the interrupt thread (`true`) is one
step. on_irq takes irq_lock, init_NRF24L01 does not. -/
namespace RfidStation.SpiBus
open Cstr Config Nrf ChipSelect
open Function (update update_self update_of_ne)

inductive Transfer where
  | writeByte (value : UInt8)
  | readByte
  | writeBuf (buf : Bytes)
  | readBuf (bytes : UInt8)
  deriving DecidableEq, Repr

def transfers : Op → List Transfer
  | .ce _ => []
  | .spiWriteReg reg value => [.writeByte reg,.writeByte value]
  | .spiRead reg => [.writeByte reg,.readByte]
  | .spiReadBuf reg bytes => [.writeByte reg,.readBuf bytes]
  | .spiWriteBuf reg buf bytes => [.writeByte reg,.writeBuf (buf.take bytes.toNat)]
  | .flushRx => [.writeByte flushRx,.writeByte 0]

abbrev Tagged := Bool × Transfer

def whole (call : Bool × Op) : List Tagged := (transfers call.2).map (fun x => (call.1,x))

-- flush_rx sets CSN around SPI_write_reg, which sets it too.
def calls (thread : Bool) : Op → List (Move Tagged)
  | .ce _ => []
  | .flushRx => .select :: moves 1 1 (whole (thread,.flushRx)) ++ [.deselect]
  | op => moves 1 1 (whole (thread,op))

structure Thread where
  ops : List Op
  left : List (Move Tagged)
  deriving DecidableEq, Repr

structure State where
  bus : Bus Tagged
  threads : Bool → Thread
  begun : List (Bool × Op)

inductive Act where
  | switch (adr : Addresses) (conf : Conf) (station : UInt8) (again : Nat)
  | onIrq (bytes sta : UInt8)
  | spi (thread : Bool)
  deriving DecidableEq, Repr

-- The level of the CSN pin is not set before the first transaction.
def initial (high : Bool) : State := ⟨⟨high,[],[],[]⟩,fun _ => ⟨[],[]⟩,[]⟩

def start (s : State) (thread : Bool) (ops : List Op) : Option State :=
  if s.threads thread = ⟨[],[]⟩ then some {s with threads := update s.threads thread ⟨ops,[]⟩}
  else none

-- The next step of a thread on the bus; setting CE is a step beside it.
def spi (s : State) (thread : Bool) : Option State :=
  match s.threads thread with
  | ⟨ops,m :: rest⟩ => some {s with
      bus := s.bus.move m
      threads := update s.threads thread ⟨ops,rest⟩}
  | ⟨op :: ops,[]⟩ => match calls thread op with
    | [] => some {s with threads := update s.threads thread ⟨ops,[]⟩}
    | m :: rest => some {s with
        bus := s.bus.move m
        threads := update s.threads thread ⟨ops,rest⟩
        begun := s.begun ++ [(thread,op)]}
  | ⟨[],[]⟩ => none

-- `sta` is what STATUS is going to be read as.
def step (s : State) : Act → Option State
  | .switch adr conf station again => start s false (initNrf adr conf station again)
  | .onIrq bytes sta => start s true (rxStatus ++ rxPacket bytes sta)
  | .spi thread => spi s thread

structure Clean (s : State) : Prop where
  stray : s.bus.stray = []
  windows : ∃ later, s.begun.map whole = s.bus.windows ++ later ∧
    (s.bus.window = [] ∨ ∃ w more, later = w :: more ∧ s.bus.window <+: w)

/-- A thread works on the bus only when the other one is not inside a transaction. -/
def Exclusive (s : State) : Act → Prop
  | .spi thread => (s.threads !thread).left = []
  | _ => True

instance (s : State) (a : Act) : Decidable (Exclusive s a) := by
  unfold Exclusive
  split <;> infer_instance

structure Inv (s : State) : Prop where
  free : (∀ thread, (s.threads thread).left = []) → Settled (s.begun.map whole) s.bus
  inside : ∀ thread, (s.threads thread).left ≠ [] → (s.threads !thread).left = [] ∧
    ∃ earlier op, s.begun = earlier ++ [(thread,op)] ∧
      Phase (earlier.map whole) (whole (thread,op)) s.bus (s.threads thread).left

theorem callsMoves (thread : Bool) (op : Op) : calls thread op = [] ∨
    ∃ a b, calls thread op = moves (a + 1) (b + 1) (whole (thread,op)) := by
  cases op with
  | ce state => exact .inl rfl
  | flushRx => exact .inr ⟨1,1,rfl⟩
  | _ => exact .inr ⟨0,0,rfl⟩

theorem initialInv (high : Bool) : Inv (initial high) :=
  ⟨fun _ => ⟨rfl,rfl,rfl⟩,by simp [initial]⟩

theorem cleanOfInv (s : State) (inv : Inv s) : Clean s := by
  by_cases free : ∀ thread, (s.threads thread).left = []
  · obtain ⟨window,windows,stray⟩ := inv.free free
    exact ⟨stray,[],by rw [windows,List.append_nil],.inl window⟩
  · obtain ⟨thread,busy⟩ := not_forall.mp free
    obtain ⟨-,earlier,op,begun,phase⟩ := inv.inside thread busy
    obtain ⟨stray,windows⟩ := phaseWindows phase
    refine ⟨stray,?_⟩
    rw [begun,List.map_append]
    exact windows

theorem bothFree {s : State} {thread : Bool} (own : (s.threads thread).left = [])
    (other : (s.threads !thread).left = []) : ∀ t, (s.threads t).left = [] := by
  intro t
  by_cases same : t = thread
  · rw [same]; exact own
  · rw [Bool.eq_not_of_ne same]; exact other

theorem startInv {s t : State} {thread : Bool} {ops : List Op} (inv : Inv s)
    (h : start s thread ops = some t) : Inv t := by
  obtain ⟨idle,rfl⟩ := Runs.guarded h
  have same (u : Bool) : (update s.threads thread ⟨ops,[]⟩ u).left = (s.threads u).left := by
    by_cases hit : u = thread
    · rw [hit,update_self,idle]
    · rw [update_of_ne hit]
  constructor
  · intro free
    exact inv.free (fun u => (same u).symm.trans (free u))
  · intro u
    simp only [same]
    exact inv.inside u

theorem movedInv {s : State} {thread : Bool} (ops : List Op) {m : Move Tagged}
    {todo rest : List (Move Tagged)} {earlier : List (Bool × Op)} {op : Op}
    (other : (s.threads !thread).left = [])
    (phase : Phase (earlier.map whole) (whole (thread,op)) s.bus todo) (next : todo = m :: rest) :
    Inv ⟨s.bus.move m,update s.threads thread ⟨ops,rest⟩,earlier ++ [(thread,op)]⟩ := by
  have later := movePhase phase next
  have still : (update s.threads thread ⟨ops,rest⟩ !thread).left = [] := by
    rw [update_of_ne (by simp)]; exact other
  constructor
  · intro free
    have done : rest = [] := by
      have own := free thread
      simpa only [update_self] using own
    rw [done] at later
    rw [List.map_append]
    exact phaseDone later
  · intro u busy
    by_cases hit : u = thread
    · subst hit
      simp only [update_self]
      exact ⟨still,earlier,op,rfl,later⟩
    · exact absurd (Bool.eq_not_of_ne hit ▸ still) busy

theorem spiInv {s t : State} {thread : Bool} (inv : Inv s)
    (exclusive : (s.threads !thread).left = []) (h : spi s thread = some t) : Inv t := by
  unfold spi at h
  split at h
  · rename_i ops m rest here
    obtain rfl := Option.some.inj h
    have left : (s.threads thread).left = m :: rest := by rw [here]
    obtain ⟨other,earlier,op,begun,phase⟩ := inv.inside thread (by simp [left])
    have moved := movedInv ops other phase left
    rw [← begun] at moved
    exact moved
  · rename_i op ops here
    have own : (s.threads thread).left = [] := by rw [here]
    have free := bothFree own exclusive
    have settled := inv.free free
    split at h
    · obtain rfl := Option.some.inj h
      have same (u : Bool) : (update s.threads thread ⟨ops,[]⟩ u).left = [] := by
        by_cases hit : u = thread
        · rw [hit,update_self]
        · rw [update_of_ne hit]; exact free u
      exact ⟨fun _ => settled,fun u busy => absurd (same u) busy⟩
    · rename_i m rest begins
      obtain rfl := Option.some.inj h
      obtain ⟨a,b,shape⟩ := (callsMoves thread op).resolve_left (by simp [begins])
      exact movedInv ops exclusive (.opening a b settled) (shape.symm.trans begins)
  · cases h

theorem stepInv {s t : State} {a} (inv : Inv s) (exclusive : Exclusive s a)
    (h : step s a = some t) : Inv t := by
  cases a with
  | switch adr conf station again => exact startInv inv h
  | onIrq bytes sta => exact startInv inv h
  | spi thread => exact spiInv inv exclusive h

theorem selectsKeep {s : State} {thread : Bool} (low : s.bus.high = false) (a : Nat)
    {ops : List Op} {x : Tagged} {more : List (Move Tagged)}
    (here : s.threads thread = ⟨ops,List.replicate a .select ++ .transfer x :: more⟩) :
    ∃ t, Runs.exec step s (List.replicate (a + 1) (.spi thread)) = some t ∧
      t.bus = {s.bus with window := s.bus.window ++ [x]} ∧ t.begun = s.begun := by
  induction a generalizing s with
  | zero =>
    let next : State := ⟨s.bus.move (.transfer x),update s.threads thread ⟨ops,more⟩,s.begun⟩
    have moved : step s (.spi thread) = some next := by simp [step,spi,here,next]
    refine ⟨next,by rw [List.replicate_succ,Runs.exec,moved]; rfl,?_,rfl⟩
    simp [next,Bus.move,low]
  | succ a ih =>
    have kept : s.bus.move .select = s.bus := by simp [Bus.move,low]
    let next : State := {s with
      threads := update s.threads thread ⟨ops,List.replicate a .select ++ .transfer x :: more⟩}
    have moved : step s (.spi thread) = some next := by
      simp [step,spi,here,List.replicate_succ,kept,next]
    obtain ⟨t,run,bus,begun⟩ := ih (s := next) low (update_self ..)
    exact ⟨t,by rw [List.replicate_succ,Runs.exec,moved]; exact run,bus,begun⟩

theorem beginSpoils {s : State} {thread : Bool} (inv : Inv s) (low : s.bus.high = false)
    (inside : (s.threads thread).left ≠ []) {op : Op} {ops : List Op} {x : Transfer}
    {xs : List Transfer} (waiting : (s.threads !thread).ops = op :: ops)
    (some_transfer : transfers op = x :: xs) :
    ∃ n t, Runs.exec step s (List.replicate n (.spi !thread)) = some t ∧ ¬ Clean t := by
  obtain ⟨other,earlier,mine,begun,phase⟩ := inv.inside thread inside
  have windows := phaseOpen phase low
  have here : s.threads (!thread) = ⟨op :: ops,[]⟩ := by rw [← waiting,← other]
  obtain ⟨a,b,shape⟩ : ∃ a b, calls (!thread) op =
      List.replicate (a + 1) .select ++ .transfer (!thread,x) :: b := by
    rcases callsMoves (!thread) op with none | ⟨a,b,shape⟩
    · cases op <;> simp [calls,transfers,moves] at none some_transfer
    · refine ⟨a,xs.map (fun y => .transfer (!thread,y)) ++ List.replicate (b + 1) .deselect,?_⟩
      rw [shape,moves,whole,some_transfer]
      simp [Function.comp_def]
  let next : State := ⟨s.bus,update s.threads (!thread)
    ⟨ops,List.replicate a .select ++ .transfer (!thread,x) :: b⟩,s.begun ++ [(!thread,op)]⟩
  have moved : step s (.spi !thread) = some next := by
    have kept : s.bus.move .select = s.bus := by simp [Bus.move,low]
    simp only [step,spi,here,shape,List.replicate_succ,List.cons_append,kept,next]
  obtain ⟨t,run,bus,after⟩ := selectsKeep (s := next) low a (update_self ..)
  refine ⟨a + 2,t,by rw [List.replicate_succ,Runs.exec,moved]; exact run,fun clean => ?_⟩
  obtain ⟨later,all,opened⟩ := clean.windows
  have rest : later = [whole (thread,mine),whole (!thread,op)] := by
    rw [after,bus] at all
    simp only [next,begun,windows,List.map_append,List.append_assoc] at all
    exact (List.append_cancel_left all).symm
  rw [bus,rest] at opened
  obtain nothing | ⟨w,more,same,within⟩ := opened
  · simp at nothing
  · obtain ⟨rfl,-⟩ := List.cons.inj same
    have mem := within.subset (List.mem_append_right _ (List.mem_singleton_self _))
    obtain ⟨_,-,tag⟩ := List.mem_map.mp mem
    have own := congrArg Prod.fst tag
    simp at own

/-- In a run in which no thread works on the bus inside a transaction of the other, every
window holds exactly one transaction; and a thread that begins one inside an open window of
the other spoils it with its first transfer. -/
theorem cleanIfExclusive (high : Bool) (acts : List Act)
    (exclusive : Runs.Meets step Exclusive (initial high) acts) :
    Runs.Always step Clean (initial high) acts ∧
    ∀ s thread op ops, Runs.exec step (initial high) acts = some s →
      (s.threads thread).left ≠ [] → s.bus.high = false →
      (s.threads !thread).ops = op :: ops → transfers op ≠ [] →
        ∃ n t, Runs.exec step s (List.replicate n (.spi !thread)) = some t ∧ ¬ Clean t := by
  constructor
  · exact Runs.alwaysUnder cleanOfInv (fun _ _ _ => stepInv) (initialInv high) exclusive
  · intro s thread op ops run inside low waiting some_transfer
    have inv := Runs.invariantUnder (fun _ _ _ => stepInv) (initialInv high) exclusive run
    obtain ⟨x,xs,shape⟩ := List.exists_cons_of_ne_nil some_transfer
    exact beginSpoils inv low inside waiting shape

def turns (thread : Bool) (n : Nat) : List Act := List.replicate n (.spi thread)

theorem cleanIfExclusiveTurns : Runs.Always step Clean (initial false)
    (.switch ⟨[],[]⟩ [] 50 0 :: turns false 5 ++ .onIrq 9 0x40 :: turns true 5 ++ turns false 4) :=
  (cleanIfExclusive false _ (by decide)).1

def interruptedWrite : List Act :=
  .switch ⟨[],[]⟩ [] 50 0 :: turns false 3 ++ .onIrq 9 0x40 :: turns true 5

theorem mixedWindow : ¬ ∀ (high : Bool) (acts : List Act),
    Runs.Always step Clean (initial high) acts := by
  intro claim
  have seen : (Runs.exec step (initial true) interruptedWrite).map
      (fun s => (s.bus.windows,s.begun.map whole)) =
      some ([[(false,.writeByte 0x20),(true,.writeByte 0x07),(true,.readByte)]],
        [[(false,.writeByte 0x20),(false,.writeByte 0)],[(true,.writeByte 0x07),(true,.readByte)]]) := by
    decide
  obtain ⟨t,run,same⟩ := Option.map_eq_some_iff.mp seen
  obtain ⟨windows,begun⟩ := Prod.mk.inj same
  have clean := Runs.alwaysLast (claim true interruptedWrite) run
  obtain ⟨later,all,-⟩ := clean.windows
  rw [windows,begun] at all
  exact absurd (List.cons.inj all).1 (by decide)

end RfidStation.SpiBus
