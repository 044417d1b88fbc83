import RfidStation.Config
import RfidStation.Dict
import RfidStation.Hex
import RfidStation.Student
import RfidStation.Lib.Keyed

/-! The merger's bookkeeping: what msg_loop does with one packet (server.c) and what one
pass of check_timers does (timeout.c), each as one step on the two dictionaries. -/
namespace RfidStation.Merger
open Cstr Config Student

-- `(int)time(NULL)`. The difference of two of these cannot leave the `int` range.
abbrev Clock := {t : Int // 0 ≤ t ∧ t < 2 ^ 31}

def at_ (t : Nat) (small : (t : Int) < 2 ^ 31) : Clock := ⟨t,Int.natCast_nonneg t,small⟩

abbrev Packet (size : Nat) := {bytes : Bytes // bytes.length = size}

abbrev Notice := Key × Bool

structure State where
  students : Dict Int
  timers : Dict Int
  notices : List Notice
  deriving DecidableEq, Repr

def initial : State := ⟨Dict.newDict,Dict.newDict,[]⟩

def packetSize (conf : Conf) : Int := getInt conf "student.packet_size"

def checkPacket (pack : Bytes) : Bool := pack.foldl (· ^^^ ·) 0 = 0

def handleStudent (s : State) (now : Clock) (id : Key) (action : Bool) : State :=
  let state := ofInt (Dict.get 0 s.students id)
  {s with
    students := Dict.set s.students id (toInt (update state action))
    timers := Dict.set s.timers id now.val}

def handlePacket (conf : Conf) (s : State) (now : Clock) (pack : Bytes) (action : Bool) : State :=
  if getInt conf "student.checksum_enable" ≠ 0 ∧ ¬ checkPacket pack then s
  else handleStudent s now (Hex.sprintBuf pack) action

-- msg_loop's test on a packet read from connection `i`: heartbeats are all zero, and a
-- first byte of zero is for internal testing unless the setting allows it.
def passesZeroFilter (conf : Conf) (buf : Bytes) : Bool :=
  if getInt conf "student.first_byte_zero_enable" ≠ 0 then buf.any (· ≠ 0)
  else buf.headD 0 ≠ 0

def msgLoopPacket (conf : Conf) (s : State) (now : Clock) (buf : Bytes) (i : Bool) : State :=
  if passesZeroFilter conf buf then handlePacket conf s now buf i else s

def expiryNotices (students : Dict Int) (key : Key) : List Notice :=
  (verdict (ofInt (Dict.get 0 students key))).toList.map (fun action => (key,action))

def studentTimeout (conf : Conf) : Int := getInt conf "student.timeout"

def checkLoop (timeout curr : Int) :
    Dict Int → Dict Int → List Notice → Dict Int × Dict Int × List Notice
  | [], students, notices => ([],students,notices)
  | (key,value) :: timer, students, notices =>
      if curr - value ≥ timeout then
        checkLoop timeout curr timer (Dict.del students key).1
          (notices ++ expiryNotices students key)
      else
        let r := checkLoop timeout curr timer students notices
        ((key,value) :: r.1,r.2)

def checkTimers (conf : Conf) (s : State) (curr : Clock) : State :=
  let r := checkLoop (studentTimeout conf) curr.val s.timers s.students s.notices
  ⟨r.2.1,r.1,r.2.2⟩

inductive Event (size : Nat) where
  | reading (now : Clock) (role : Bool) (pack : Packet size)
  | check (now : Clock)
  deriving DecidableEq, Repr

variable {size : Nat}

def step (conf : Conf) (s : State) : Event size → State
  | .reading now role pack => msgLoopPacket conf s now pack.val role
  | .check now => checkTimers conf s now

def run (conf : Conf) (s : State) (events : List (Event size)) : State :=
  events.foldl (step conf) s

theorem expiryNoticesOwn (students : Dict Int) (key : Key) :
    Keyed.ofKey Prod.fst key (expiryNotices students key) = expiryNotices students key :=
  Keyed.ofKeySame (by
    intro x hx
    obtain ⟨action,_,rfl⟩ := List.mem_map.mp hx
    rfl)

theorem expiryNoticesOther (students : Dict Int) {k key : Key} (different : k ≠ key) :
    Keyed.ofKey Prod.fst key (expiryNotices students k) = [] :=
  Keyed.ofKeyOther (by
    intro x hx
    obtain ⟨action,_,rfl⟩ := List.mem_map.mp hx
    exact different)

def Expired (timeout curr : Int) (timers : Dict Int) (key : Key) : Prop :=
  ∃ value, Dict.lookup timers key = some value ∧ curr - value ≥ timeout

theorem expiredNone (timeout curr : Int) {timers key} (absent : Dict.lookup timers key = none) :
    ¬ Expired timeout curr timers key := by
  rintro ⟨value,found,_⟩
  simp [absent] at found

theorem checkLoopTimers (timeout curr : Int) (timers students : Dict Int) (notices : List Notice) :
    (checkLoop timeout curr timers students notices).1 =
      timers.filter (fun item => curr - item.2 < timeout) := by
  induction timers generalizing students notices with
  | nil => rfl
  | cons item rest ih =>
    obtain ⟨k,v⟩ := item
    by_cases old : curr - v ≥ timeout
    · rw [checkLoop,if_pos old,ih,List.filter_cons_of_neg (by simpa using old)]
    · rw [checkLoop,if_neg old,List.filter_cons_of_pos (by simpa using old)]
      exact congrArg ((k,v) :: ·) (ih students notices)

theorem checkLoopDistinct (timeout curr : Int) {timers students : Dict Int}
    (notices : List Notice) (distinct : Dict.Distinct timers)
    (studentsDistinct : Dict.Distinct students) :
    Dict.Distinct (checkLoop timeout curr timers students notices).1 ∧
    Dict.Distinct (checkLoop timeout curr timers students notices).2.1 := by
  refine ⟨?_,?_⟩
  · rw [checkLoopTimers]
    exact distinct.sublist (List.filter_sublist.map Prod.fst)
  · clear distinct
    induction timers generalizing students notices with
    | nil => exact studentsDistinct
    | cons item rest ih =>
      obtain ⟨k,v⟩ := item
      simp only [checkLoop]
      split
      · exact ih _ (Dict.delDistinct studentsDistinct k)
      · exact ih _ studentsDistinct

theorem expiredCons {timeout curr k v rest key} :
    Expired timeout curr ((k,v) :: rest) key ↔
      if k = key then curr - v ≥ timeout else Expired timeout curr rest key := by
  by_cases same : k = key <;> simp [Expired,Dict.lookup,same]

theorem checkLoopKept {timeout curr timers students key} (notices : List Notice)
    (distinct : Dict.Distinct timers) (studentsDistinct : Dict.Distinct students)
    (young : ¬ Expired timeout curr timers key) :
    Dict.lookup (checkLoop timeout curr timers students notices).1 key = Dict.lookup timers key ∧
    Dict.lookup (checkLoop timeout curr timers students notices).2.1 key =
      Dict.lookup students key ∧
    Keyed.ofKey Prod.fst key (checkLoop timeout curr timers students notices).2.2 =
      Keyed.ofKey Prod.fst key notices := by
  induction timers generalizing students notices with
  | nil => exact ⟨rfl,rfl,rfl⟩
  | cons item rest ih =>
    obtain ⟨k,v⟩ := item
    obtain ⟨fresh,tail⟩ := List.nodup_cons.mp distinct
    rw [expiredCons] at young
    by_cases same : k = key
    · subst k
      rw [if_pos rfl] at young
      have later := ih notices tail studentsDistinct
        (expiredNone timeout curr (Dict.lookupNone.mpr fresh))
      simp only [checkLoop,if_neg young,Dict.lookup,if_true,true_and]
      exact later.2
    · rw [if_neg same] at young
      by_cases old : curr - v ≥ timeout
      · have later := ih (notices ++ expiryNotices students k) tail
          (Dict.delDistinct studentsDistinct k) young
        rw [Dict.delLookup studentsDistinct,if_neg same,Keyed.ofKeyAppend,
          expiryNoticesOther students same,List.append_nil] at later
        simp only [checkLoop,if_pos old,Dict.lookup,if_neg same]
        exact later
      · have later := ih notices tail studentsDistinct young
        simp only [checkLoop,if_neg old,Dict.lookup,if_neg same]
        exact later

theorem checkLoopExpired {timeout curr timers students key} (notices : List Notice)
    (distinct : Dict.Distinct timers) (studentsDistinct : Dict.Distinct students)
    (old : Expired timeout curr timers key) :
    Dict.lookup (checkLoop timeout curr timers students notices).1 key = none ∧
    Dict.lookup (checkLoop timeout curr timers students notices).2.1 key = none ∧
    Keyed.ofKey Prod.fst key (checkLoop timeout curr timers students notices).2.2 =
      Keyed.ofKey Prod.fst key notices ++ expiryNotices students key := by
  induction timers generalizing students notices with
  | nil => exact absurd old (expiredNone timeout curr rfl)
  | cons item rest ih =>
    obtain ⟨k,v⟩ := item
    obtain ⟨fresh,tail⟩ := List.nodup_cons.mp distinct
    rw [expiredCons] at old
    by_cases same : k = key
    · subst k
      rw [if_pos rfl] at old
      have absent : Dict.lookup rest key = none := Dict.lookupNone.mpr fresh
      have kept := checkLoopKept (notices ++ expiryNotices students key) tail
        (Dict.delDistinct studentsDistinct key) (expiredNone timeout curr absent)
      rw [Dict.delLookup studentsDistinct,if_pos rfl,absent,Keyed.ofKeyAppend,
        expiryNoticesOwn] at kept
      simp only [checkLoop,if_pos old]
      exact kept
    · rw [if_neg same] at old
      by_cases expired : curr - v ≥ timeout
      · have later := ih (notices ++ expiryNotices students k) tail
          (Dict.delDistinct studentsDistinct k) old
        have state : expiryNotices (Dict.del students k).1 key = expiryNotices students key := by
          simp [expiryNotices,Dict.get,Dict.delLookup studentsDistinct,same]
        rw [Keyed.ofKeyAppend,expiryNoticesOther students same,List.append_nil,state] at later
        simp only [checkLoop,if_pos expired]
        exact later
      · have later := ih notices tail studentsDistinct old
        simp only [checkLoop,if_neg expired,Dict.lookup,if_neg same]
        exact later

theorem checkLoopNotices {timeout curr timers students notices notice}
    (mem : notice ∈ (checkLoop timeout curr timers students notices).2.2) :
    notice ∈ notices ∨ notice.1 ∈ Dict.keys timers := by
  induction timers generalizing students notices with
  | nil => exact .inl mem
  | cons item rest ih =>
    obtain ⟨k,v⟩ := item
    simp only [checkLoop] at mem
    split at mem
    · rcases ih mem with before | later
      · rcases List.mem_append.mp before with old | new
        · exact .inl old
        · obtain ⟨action,_,rfl⟩ := List.mem_map.mp new
          exact .inr List.mem_cons_self
      · exact .inr (List.mem_cons_of_mem _ later)
    · exact (ih mem).imp_right (List.mem_cons_of_mem _)

end RfidStation.Merger
