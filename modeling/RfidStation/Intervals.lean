import RfidStation.CloudSend
import RfidStation.Lib.Throttle
import RfidStation.Merger

/-! What is done at intervals: get_master_ip in the receiver (receive/sender.c), which keeps the last
address the cloud has answered with, and check_heartbeat in the merger (merger/sender.c). -/
namespace RfidStation.Intervals
open Cstr Config NotifyQueue
open Merger (Clock at_)

def checkHeartbeat (conf : Conf) (lastTime : Int) (now : Clock) : Bool × Int :=
  let shouldSend := decide (now.val - lastTime > getInt conf "cloud.heartbeat_interval")
  (shouldSend,if shouldSend then now.val else lastTime)

-- The rounds of init_sender, each with the time at which it comes to check_heartbeat.
def heartbeats (conf : Conf) : Int → List Clock → List Int
  | _, [] => []
  | lastTime, now :: rest =>
    let (send,last) := checkHeartbeat conf lastTime now
    (if send then [now.val] else []) ++ heartbeats conf last rest

/- A call of get_master_ip: the time, and what cloud_send would return and store. -/
structure Call where
  now : Clock
  reply : Reply
  deriving DecidableEq

/- The blocks that malloc has given out, with what they hold until they are freed. `asked` and
`used` are history: the queries, and the text at the address returned. -/
structure State where
  blocks : List (Option Bytes)
  ip : Option Nat
  lastUpdate : Int
  asked : List Int
  used : List Bytes
  deriving DecidableEq, Repr

def initial : State := ⟨[],none,0,[],[]⟩

def localip : Bytes := ascii "127.0.0.1"

def malloc (blocks : List (Option Bytes)) (text : Option Bytes) : List (Option Bytes) × Option Nat :=
  match text with
  | none => (blocks,none)
  | some text => (blocks ++ [some text],some blocks.length)

-- `if (p) free(p)`; `none` is a block that is not in use.
def free (blocks : List (Option Bytes)) : Option Nat → Option (List (Option Bytes))
  | none => some blocks
  | some p => match blocks[p]? with
    | some (some _) => some (blocks.set p none)
    | _ => none

def query (s : State) (call : Call) : Option State := do
  let (blocks,recvbuf) := malloc s.blocks call.reply.recvBuf
  if call.reply.received < 7 then
    let blocks ← free blocks recvbuf
    some {s with blocks := blocks, lastUpdate := call.now.val, asked := s.asked ++ [call.now.val]}
  else
    let blocks ← free blocks s.ip
    some {s with
      blocks := blocks
      ip := recvbuf
      lastUpdate := call.now.val
      asked := s.asked ++ [call.now.val]}

-- The caller reads the text before the next call.
def address (s : State) : Option Bytes := match s.ip with
  | none => some localip
  | some p => match s.blocks[p]? with
    | some (some text) => some (cstr text)
    | _ => none

def getMasterIp (conf : Conf) (s : State) (call : Call) : Option State := do
  let s ← if call.now.val - s.lastUpdate > getInt conf "master.dynamic_ip_timeout" then query s call
    else some s
  let text ← address s
  some {s with used := s.used ++ [text]}

def Call.answer (call : Call) (old : Bytes) : Bytes :=
  if call.reply.received < 7 then old else (call.reply.recvBuf.map cstr).getD localip

def served (timeout : Int) : Int → Bytes → List Call → List Bytes
  | _, _, [] => []
  | lastUpdate, ip, call :: rest =>
    if call.now.val - lastUpdate > timeout then
      call.answer ip :: served timeout call.now.val (call.answer ip) rest
    else ip :: served timeout lastUpdate ip rest

/- The block that `ip` points to is the only one in use, and holds the address. -/
structure Holds (s : State) (ip : Bytes) : Prop where
  read : address s = some ip
  only : ∀ p text, s.blocks[p]? = some (some text) → s.ip = some p

theorem initialHolds : Holds initial localip := ⟨rfl,by simp [initial]⟩

section Calls
variable {conf : Conf} {s t : State} {ip : Bytes} {call : Call}

theorem readBlock (holds : Holds s ip) {p : Nat} (here : s.ip = some p) :
    ∃ text, s.blocks[p]? = some (some text) ∧ cstr text = ip := by
  have read := holds.read
  rw [address,here] at read
  simp only at read
  split at read
  · rename_i text block
    exact ⟨text,block,Option.some.inj read⟩
  · contradiction

theorem freeOwned (holds : Holds s ip) (more : List (Option Bytes)) :
    ∃ freed : List (Option Bytes), free (s.blocks ++ more) s.ip = some (freed ++ more) ∧
      freed.length = s.blocks.length ∧ ∀ (q : Nat) text, freed[q]? ≠ some (some text) := by
  cases here : s.ip with
  | none =>
    refine ⟨s.blocks,rfl,rfl,fun q text block => ?_⟩
    have used := holds.only q text block
    rw [here] at used
    contradiction
  | some p =>
    obtain ⟨text,block,-⟩ := readBlock holds here
    have inside : p < s.blocks.length := (List.getElem?_eq_some_iff.mp block).1
    refine ⟨s.blocks.set p none,?_,List.length_set,fun q other => ?_⟩
    · rw [free,List.getElem?_append_left inside,block]
      exact congrArg some (List.set_append_left p none inside)
    · rw [List.getElem?_set]
      split
      · simp
      · rename_i apart
        intro block
        exact apart (Option.some.inj (here.symm.trans (holds.only q other block)))

theorem queryHolds (holds : Holds s ip) (call : Call) : ∃ t, query s call = some t ∧
    Holds t (call.answer ip) ∧ t.lastUpdate = call.now.val ∧ t.asked = s.asked ++ [call.now.val] ∧
    t.used = s.used := by
  by_cases failed : call.reply.received < 7
  · have answer : call.answer ip = ip := if_pos failed
    rw [answer]
    cases got : call.reply.recvBuf with
    | none =>
      refine ⟨{s with lastUpdate := call.now.val, asked := s.asked ++ [call.now.val]},?_,
        ⟨holds.read,holds.only⟩,rfl,rfl,rfl⟩
      simp [query,malloc,got,failed,free]
    | some text =>
      -- what was stored for an answer too short is freed at once
      refine ⟨{s with
          blocks := s.blocks ++ [none]
          lastUpdate := call.now.val
          asked := s.asked ++ [call.now.val]},?_,⟨?_,fun q other block => ?_⟩,rfl,rfl,rfl⟩
      · simp [query,malloc,got,failed,free]
      · have read := holds.read
        cases here : s.ip with
        | none => rw [address,here] at read; exact read
        | some p =>
          obtain ⟨old,block,same⟩ := readBlock holds here
          have inside : p < s.blocks.length := (List.getElem?_eq_some_iff.mp block).1
          simp only [address,List.getElem?_append_left inside,block,same]
      · refine holds.only q other ?_
        rw [List.getElem?_append] at block
        split at block
        · exact block
        · simp [List.getElem?_singleton] at block
  · cases got : call.reply.recvBuf with
    | none =>
      obtain ⟨freed,done,-,dead⟩ := freeOwned holds []
      rw [List.append_nil,List.append_nil] at done
      refine ⟨{s with
          blocks := freed
          ip := none
          lastUpdate := call.now.val
          asked := s.asked ++ [call.now.val]},?_,⟨?_,fun q other block => absurd block (dead q other)⟩,
        rfl,rfl,rfl⟩
      · simp [query,malloc,got,failed,done]
      · simp [address,Call.answer,failed,got]
    | some text =>
      obtain ⟨freed,done,length,dead⟩ := freeOwned holds [some text]
      refine ⟨{s with
          blocks := freed ++ [some text]
          ip := some s.blocks.length
          lastUpdate := call.now.val
          asked := s.asked ++ [call.now.val]},?_,⟨?_,fun q other block => ?_⟩,rfl,rfl,rfl⟩
      · simp [query,malloc,got,failed,done]
      · simp [address,Call.answer,failed,got,← length]
      · rw [List.getElem?_append] at block
        split at block
        · exact absurd block (dead q other)
        · rw [List.getElem?_singleton] at block
          split at block
          · rename_i low zero
            simp only [Option.some.injEq]
            omega
          · contradiction

theorem servedRun (conf : Conf) (calls : List Call) (holds : Holds s ip) :
    ∃ t, Runs.exec (getMasterIp conf) s calls = some t ∧ (∃ last, Holds t last) ∧
      t.used = s.used ++ served (getInt conf "master.dynamic_ip_timeout") s.lastUpdate ip calls ∧
      t.asked = s.asked ++ Throttle.firings (getInt conf "master.dynamic_ip_timeout") s.lastUpdate
        (calls.map (fun call => call.now.val)) := by
  induction calls generalizing s ip with
  | nil => exact ⟨s,rfl,⟨ip,holds⟩,(List.append_nil _).symm,(List.append_nil _).symm⟩
  | cons call rest ih =>
    rw [Runs.exec,List.map_cons,served,Throttle.firings]
    by_cases due : call.now.val - s.lastUpdate > getInt conf "master.dynamic_ip_timeout"
    · obtain ⟨m,asked,held,update,queries,uses⟩ := queryHolds holds call
      obtain ⟨t,run,last,used,more⟩ := ih (s := {m with used := m.used ++ [call.answer ip]}) ⟨held.read,held.only⟩
      refine ⟨t,?_,last,?_,?_⟩
      · simp only [getMasterIp,if_pos due,asked,Option.bind_eq_bind,Option.bind_some,held.read]
        exact run
      · rw [used,if_pos due,update,uses,List.append_assoc,List.singleton_append]
      · rw [more,if_pos due,update,queries,List.append_assoc,List.singleton_append]
    · obtain ⟨t,run,last,used,more⟩ := ih (s := {s with used := s.used ++ [ip]}) ⟨holds.read,holds.only⟩
      refine ⟨t,?_,last,?_,?_⟩
      · simp only [getMasterIp,if_neg due,Option.bind_eq_bind,Option.bind_some,holds.read]
        exact run
      · rw [used,if_neg due,List.append_assoc,List.singleton_append]
      · rw [more,if_neg due]

end Calls

/-- In every sequence of calls no block is read or freed that is not in use, and none but the one
of the address stays in use; every call returns the last answer that can be an address, and the
queries are those of the interval. -/
theorem masterIpServed (conf : Conf) (calls : List Call) : ∃ s,
    Runs.exec (getMasterIp conf) initial calls = some s ∧
    (∀ (p : Nat) text, s.blocks[p]? = some (some text) → s.ip = some p) ∧
    s.used = served (getInt conf "master.dynamic_ip_timeout") 0 localip calls ∧
    s.asked = Throttle.firings (getInt conf "master.dynamic_ip_timeout") 0
      (calls.map (fun call => call.now.val)) := by
  obtain ⟨s,run,⟨ip,holds⟩,used,asked⟩ := servedRun conf calls initialHolds
  exact ⟨s,run,holds.only,used,asked⟩

def tens : Conf := [(ascii "cloud.heartbeat_interval",ascii "10"),
  (ascii "master.dynamic_ip_timeout",ascii "10")]

def calls : List Call := [⟨at_ 100 (by decide),⟨8,some (ascii "10.0.0.7" ++ [0])⟩⟩,
  ⟨at_ 105 (by decide),⟨0,none⟩⟩,⟨at_ 111 (by decide),⟨2,some (ascii "no" ++ [0])⟩⟩]

example : (Runs.exec (getMasterIp tens) initial calls).map State.used =
    some [ascii "10.0.0.7",ascii "10.0.0.7",ascii "10.0.0.7"] := by decide

theorem heartbeatFirings (conf : Conf) (lastTime : Int) (times : List Clock) :
    heartbeats conf lastTime times =
      Throttle.firings (getInt conf "cloud.heartbeat_interval") lastTime (times.map Subtype.val) := by
  induction times generalizing lastTime with
  | nil => rfl
  | cons now rest ih =>
    rw [heartbeats,List.map_cons,Throttle.firings]
    by_cases due : now.val - lastTime > getInt conf "cloud.heartbeat_interval"
    · simp only [checkHeartbeat,decide_eq_true due,if_true,if_pos due,List.singleton_append,ih]
    · simp only [checkHeartbeat,decide_eq_false due,Bool.false_eq_true,if_false,if_neg due,List.nil_append,ih]

theorem firstHeartbeat {conf : Conf} {first : Clock}
    (started : getInt conf "cloud.heartbeat_interval" < first.val) (times : List Clock) :
    heartbeats conf 0 (first :: times) =
      first.val :: Throttle.firings (getInt conf "cloud.heartbeat_interval") first.val
        (times.map Subtype.val) := by
  rw [heartbeatFirings,List.map_cons,Throttle.firings,if_pos (by rw [Int.sub_zero]; exact started)]

/-- The first round of init_sender sends a heartbeat. Two of them are more than the interval apart,
and at most by the longest round more; after every round the last one is at most the interval ago. -/
theorem heartbeatsRegular (conf : Conf) (first : Clock) (times : List Clock) (longest : Int)
    (interval : 0 ≤ getInt conf "cloud.heartbeat_interval")
    (started : getInt conf "cloud.heartbeat_interval" < first.val)
    (rounds : Throttle.Rounds longest ((first :: times).map Subtype.val)) :
    (heartbeats conf 0 (first :: times)).head? = some first.val ∧
    Throttle.Regular (getInt conf "cloud.heartbeat_interval") longest (heartbeats conf 0 (first :: times)) ∧
    ∀ before now after, times = before ++ now :: after →
      heartbeats conf 0 (first :: (before ++ [now])) <+: heartbeats conf 0 (first :: times) ∧
      ∃ last, (heartbeats conf 0 (first :: (before ++ [now]))).getLast? = some last ∧
        now.val - last ≤ getInt conf "cloud.heartbeat_interval" := by
  simp only [firstHeartbeat started]
  refine ⟨rfl,Throttle.firingsRegular interval (by omega) rounds,fun before now after split => ⟨?_,_,
    Throttle.firingsLast ..,?_⟩⟩
  · have parts : times.map Subtype.val = (before ++ [now]).map Subtype.val ++ after.map Subtype.val := by
      rw [split,← List.map_append,List.append_assoc,List.singleton_append]
    rw [parts,Throttle.firingsAppend]
    exact (List.prefix_cons_inj first.val).mpr (List.prefix_append _ _)
  · rw [List.map_append,List.map_singleton]
    exact Throttle.lastOfLately interval _ _ _

theorem heartbeatsRegularTens :
    heartbeats tens 0 [at_ 100 (by decide),at_ 106 (by decide),at_ 112 (by decide),at_ 113 (by decide)] =
      [100,112] ∧
    Throttle.Regular 10 6
      (heartbeats tens 0 [at_ 100 (by decide),at_ 106 (by decide),at_ 112 (by decide),at_ 113 (by decide)]) :=
  ⟨by decide,(heartbeatsRegular tens (at_ 100 (by decide))
    [at_ 106 (by decide),at_ 112 (by decide),at_ 113 (by decide)] 6 (by decide) (by decide) (by decide)).2.1⟩

end RfidStation.Intervals
