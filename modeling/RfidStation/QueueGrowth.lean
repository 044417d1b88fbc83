import RfidStation.ChannelList
import RfidStation.NotifyQueue
import RfidStation.Records
import RfidStation.SendQueue

/-! The counters of the two growable queues, run beside the queues in the 32-bit arithmetic of
the source. notify (timeout.c) and commit_notify_queue count in int, where an overflow leaves
no value; add_to_queue and do_send (receive/sender.c) count in unsigned int and a size_t as
wide, where it wraps. The indices an append writes are listed beside the counters it leaves. -/
namespace RfidStation.QueueGrowth
open Cstr Buffers
open ChannelList (isInt)

def int (n : Int) : Option Int := if isInt n then some n else none

theorem intFits {n : Int} (low : -2147483648 ≤ n) (high : n ≤ 2147483647) : int n = some n := by
  simp [int,isInt,low,high]

structure Counters where
  notifyQueueLen : Int
  notifyQueueAllocSize : Int
  deriving DecidableEq, Repr

structure Append where
  counters : Counters
  written : List Int
  deriving DecidableEq, Repr

def allocSize (requestSize wanted capacity : Int) : Option Int :=
  if wanted > capacity then do
    let sum ← int (capacity + requestSize)
    int (sum * 2)
  else some capacity

-- memcpy of ID_SIZE bytes, then '0' + action and '.'; ID_SIZE is REQUEST_SIZE - 2.
def notify (requestSize : Int) (c : Counters) : Option Append := do
  let wanted ← int (c.notifyQueueLen + requestSize)
  let capacity ← allocSize requestSize wanted c.notifyQueueAllocSize
  let action ← int (wanted - 2)
  let stop ← int (wanted - 1)
  some ⟨⟨wanted,capacity⟩,
    (List.range (requestSize - 2).toNat).map (fun (i : Nat) => c.notifyQueueLen + i) ++ [action,stop]⟩

def commit (sendLen : Int) (c : Counters) : Option Counters := do
  let left ← int (c.notifyQueueLen - if sendLen = 0 then c.notifyQueueLen else sendLen)
  some {c with notifyQueueLen := left}

structure Sizes where
  sendQueueLen : UInt32
  sendQueueSize : UInt32
  deriving DecidableEq, Repr

def addToQueue (len : UInt32) (c : Sizes) : Sizes :=
  ⟨c.sendQueueLen + len,if c.sendQueueLen + len > c.sendQueueSize then
    (c.sendQueueSize + len) * 2 else c.sendQueueSize⟩

def copied (len : UInt32) (c : Sizes) : List Nat :=
  (List.range len.toNat).map (fun i => c.sendQueueLen.toNat + i)

def doSend (lastok : Bool) (c : Sizes) : Sizes :=
  if lastok then
    if c.sendQueueLen = 0 then c else {c with sendQueueLen := 0}
  else c

variable {ρ β : Type}

/-! The merger: `counters` is none once one of them has overflowed. -/

structure Notices (ρ β : Type) where
  pipe : NotifyQueue.Pipe ρ β
  counters : Option Counters
  deriving DecidableEq, Repr

def initialNotices : Notices ρ β := ⟨NotifyQueue.initial,some ⟨0,0⟩⟩

def counted (requestSize : Int) (s : NotifyQueue.Pipe ρ β) (c : Counters) :
    NotifyQueue.Act ρ → Option Counters
  | .notify _ => (notify requestSize c).map Append.counters
  | .dequeue => commit s.sendLen c
  | _ => some c

def noticesStep (l : NotifyQueue.Limits) (enc : ρ → List β) (requestSize : Int) (s : Notices ρ β)
    (a : NotifyQueue.Act ρ) : Option (Notices ρ β) :=
  (NotifyQueue.step l enc s.pipe a).map (fun pipe =>
    ⟨pipe,s.counters.bind (fun c => counted requestSize s.pipe c a)⟩)

structure Sending (β : Type) where
  sender : SendQueue.Sender β
  sizes : Sizes
  deriving DecidableEq, Repr

def initialSending : Sending β := ⟨SendQueue.initial,⟨0,0⟩⟩

def sized (s : SendQueue.Sender β) (c : Sizes) : SendQueue.Act β → Sizes
  | .addToQueue buf => addToQueue (UInt32.ofNat buf.length) c
  | .take => doSend s.lastok c
  | _ => c

def sendingStep (size : Int) (zero : β) (s : Sending β) (a : SendQueue.Act β) :
    Option (Sending β) :=
  (SendQueue.step size zero s.sender a).map (fun sender => ⟨sender,sized s.sender s.sizes a⟩)

def maxQueued : Nat := 536870912

def NoticeFits (requestSize : Int) (s : Notices ρ β) : NotifyQueue.Act ρ → Prop
  | .notify _ => s.pipe.queueLen + requestSize ≤ maxQueued
  | _ => True

def BufFits (s : Sending β) : SendQueue.Act β → Prop
  | .addToQueue buf => s.sender.queue.cells.length + buf.length ≤ maxQueued
  | _ => True

instance (requestSize : Int) (s : Notices ρ β) :
    (a : NotifyQueue.Act ρ) → Decidable (NoticeFits requestSize s a)
  | .notify _ => inferInstanceAs (Decidable (_ ≤ _))
  | .enter | .testEmpty | .testLong | .setLimit | .dequeue | .upload _ => isTrue trivial

instance (s : Sending β) : (a : SendQueue.Act β) → Decidable (BufFits s a)
  | .addToQueue _ => inferInstanceAs (Decidable (_ ≤ _))
  | .connect _ | .take | .send _ => isTrue trivial

/-- The capacity never shrinks and holds the queue. An append computes its capacity without
overflow, makes room for the record and writes below the capacity. -/
def NoticeSufficient (requestSize : Int) (s : Notices ρ β) (a : NotifyQueue.Act ρ) : Prop :=
  ∃ c d, s.counters = some c ∧ counted requestSize s.pipe c a = some d ∧
    (0 ≤ d.notifyQueueLen ∧ d.notifyQueueLen ≤ d.notifyQueueAllocSize) ∧
    c.notifyQueueAllocSize ≤ d.notifyQueueAllocSize ∧
    ∀ call, a = .notify call → ∃ written, notify requestSize c = some ⟨d,written⟩ ∧
      c.notifyQueueLen + requestSize ≤ d.notifyQueueAllocSize ∧
      ∀ i ∈ written, 0 ≤ i ∧ i < d.notifyQueueAllocSize

def BufSufficient (s : Sending β) (a : SendQueue.Act β) : Prop :=
  let c := s.sizes
  let d := sized s.sender s.sizes a
  d.sendQueueLen ≤ d.sendQueueSize ∧ c.sendQueueSize ≤ d.sendQueueSize ∧
    ∀ buf, a = .addToQueue buf →
      d.sendQueueLen.toNat = c.sendQueueLen.toNat + buf.length ∧
      d.sendQueueSize.toNat = grow c.sendQueueLen.toNat buf.length c.sendQueueSize.toNat ∧
      c.sendQueueLen.toNat + buf.length ≤ d.sendQueueSize.toNat ∧
      ∀ i ∈ copied (UInt32.ofNat buf.length) c, i < d.sendQueueSize.toNat

theorem allocSizeGrows {need length capacity : Nat} (room : length + need ≤ maxQueued)
    (small : capacity < 4 * maxQueued) :
    allocSize need (length + need : Nat) capacity = some (grow length need capacity : Int) := by
  unfold maxQueued at room small
  unfold allocSize grow
  split
  · rename_i grows
    rw [if_pos (by omega),intFits (by omega) (by omega)]
    exact intFits (n := (capacity + need) * 2) (by omega) (by omega)
  · rename_i fits
    rw [if_neg (by omega)]

def counters (q : Buffer β) : Counters := ⟨q.cells.length,q.capacity⟩

theorem notifyAppends (q : Buffer β) {xs : List β} (least : 4 ≤ xs.length)
    (room : q.cells.length + xs.length ≤ maxQueued) (small : q.capacity < 4 * maxQueued) :
    ∃ written, notify xs.length (counters q) = some ⟨counters (q.append xs),written⟩ ∧
      ∀ i ∈ written, 0 ≤ i ∧ i < (q.append xs).cells.length := by
  have grown := allocSizeGrows room small
  have long : (q.append xs).cells.length = q.cells.length + xs.length := by simp
  unfold maxQueued at room small
  have wanted : int ((q.cells.length : Int) + xs.length) =
      some ((q.cells.length + xs.length : Nat) : Int) := intFits (by omega) (by omega)
  have action : int (((q.cells.length + xs.length : Nat) : Int) - 2) = some _ :=
    intFits (by omega) (by omega)
  have stop : int (((q.cells.length + xs.length : Nat) : Int) - 1) = some _ :=
    intFits (by omega) (by omega)
  refine ⟨_,by
    simp only [notify,counters,long,wanted,grown,action,stop,bind,Option.bind]; rfl,?_⟩
  intro i mem
  rw [long]
  rcases List.mem_append.mp mem with inId | last
  · obtain ⟨j,below,rfl⟩ := List.mem_map.mp inId
    have := List.mem_range.mp below
    omega
  · rcases List.mem_pair.mp last with rfl | rfl <;> omega

theorem commitShrinks (q : Buffer β) {sendLen chunk : Int}
    (same : chunk = if sendLen = 0 then (q.cells.length : Int) else sendLen) (low : 0 ≤ chunk)
    (inside : chunk ≤ q.cells.length) (small : q.cells.length < 4 * maxQueued) :
    commit sendLen (counters q) = some (counters (q.shrink chunk.toNat)) := by
  unfold maxQueued at small
  have left : int ((q.cells.length : Int) - chunk) =
      some ((q.shrink chunk.toNat).cells.length : Int) := by
    rw [intFits (by omega) (by omega),Buffer.shrink,List.length_take]
    exact congrArg some (by omega)
  simp only [commit,counters,← same,left,bind,Option.bind]
  rfl

section Merger
open NotifyQueue
variable {l : Limits} {enc : ρ → List β} {need : Nat}

theorem queueKept {s t : Pipe ρ β} {a} (h : step l enc s a = some t)
    (appends : ∀ call, a ≠ .notify call) (drains : a ≠ .dequeue) : t.queue = s.queue := by
  cases a with
  | notify call => exact absurd rfl (appends call)
  | enter => obtain ⟨-,rfl⟩ := stepEnter h; rfl
  | testEmpty => obtain ⟨-,rfl⟩ := stepTestEmpty h; rfl
  | testLong => obtain ⟨-,rfl⟩ := stepTestLong h; split <;> rfl
  | setLimit => obtain ⟨-,rfl⟩ := stepSetLimit h; rfl
  | dequeue => exact absurd rfl drains
  | upload reply => obtain ⟨body,-,-,rfl⟩ := stepUpload h; split <;> rfl

structure Counts (l : Limits) (s : Notices ρ β) : Prop where
  sound : Sound l s.pipe
  same : s.counters = some (counters s.pipe.queue)
  small : s.pipe.queue.capacity < 4 * maxQueued

theorem initialCounts (l : Limits) : Counts l (initialNotices : Notices ρ β) :=
  ⟨initialSound l,rfl,show 0 < 4 * maxQueued by decide⟩

theorem stepCounters (limit : 0 ≤ l.maxDataLen) (least : 4 ≤ need)
    (records : ∀ call, (enc call).length = need) {s : Notices ρ β} (counts : Counts l s)
    {a : NotifyQueue.Act ρ} (fits : NoticeFits need s a) {p : Pipe ρ β}
    (h : step l enc s.pipe a = some p) :
    counted need s.pipe (counters s.pipe.queue) a = some (counters p.queue) ∧
      s.pipe.queue.capacity ≤ p.queue.capacity ∧ p.queue.capacity < 4 * maxQueued := by
  have small := counts.small
  by_cases appends : ∃ call, a = .notify call
  · obtain ⟨call,rfl⟩ := appends
    have room : s.pipe.queueLen + (enc call).length ≤ maxQueued := by
      rw [records]; exact Int.ofNat_le.mp fits
    obtain ⟨written,grown,-⟩ := notifyAppends s.pipe.queue (by rw [records]; exact least) room small
    obtain rfl := stepNotify h
    rw [records] at grown
    exact ⟨by rw [counted,grown,Option.map_some],growKeeps _ _ _,growBelow room small⟩
  · by_cases drains : a = .dequeue
    · subst drains
      obtain ⟨here,rfl⟩ := stepDequeue limit counts.sound h
      have bounds := chunkBounds limit counts.sound here
      have within : s.pipe.queueLen < 4 * maxQueued := Nat.lt_of_le_of_lt s.pipe.queue.fits small
      exact ⟨commitShrinks s.pipe.queue rfl (by omega) bounds.2 within,Nat.le_refl _,small⟩
    · have kept := queueKept h (fun call same => appends ⟨call,same⟩) drains
      rw [kept]
      refine ⟨?_,Nat.le_refl _,small⟩
      cases a with
      | notify call => exact absurd ⟨call,rfl⟩ appends
      | dequeue => contradiction
      | _ => rfl

theorem stepCounts (limit : 0 ≤ l.maxDataLen) (least : 4 ≤ need)
    (records : ∀ call, (enc call).length = need) (s : Notices ρ β) (a : NotifyQueue.Act ρ)
    (t : Notices ρ β) (counts : Counts l s) (fits : NoticeFits need s a)
    (h : noticesStep l enc need s a = some t) : Counts l t := by
  obtain ⟨p,moved,rfl⟩ := Option.map_eq_some_iff.mp h
  obtain ⟨same,-,small⟩ := stepCounters limit least records counts fits moved
  exact ⟨stepSound limit counts.sound moved,by rw [counts.same]; exact same,small⟩

theorem countsSuffice (limit : 0 ≤ l.maxDataLen) (least : 4 ≤ need)
    (records : ∀ call, (enc call).length = need) (s : Notices ρ β) (a : NotifyQueue.Act ρ)
    (t : Notices ρ β) (counts : Counts l s) (fits : NoticeFits need s a)
    (h : noticesStep l enc need s a = some t) : NoticeSufficient need s a := by
  obtain ⟨p,moved,rfl⟩ := Option.map_eq_some_iff.mp h
  obtain ⟨same,keeps,-⟩ := stepCounters limit least records counts fits moved
  refine ⟨_,_,counts.same,same,⟨Int.natCast_nonneg _,Int.ofNat_le.mpr p.queue.fits⟩,
    Int.ofNat_le.mpr keeps,?_⟩
  rintro call rfl
  have room : s.pipe.queueLen + (enc call).length ≤ maxQueued := by
    rw [records]; exact Int.ofNat_le.mp fits
  obtain ⟨written,grown,below⟩ :=
    notifyAppends s.pipe.queue (by rw [records]; exact least) room counts.small
  obtain rfl := stepNotify moved
  have held := (s.pipe.queue.append (enc call)).fits
  have enough := growEnough s.pipe.queue.cells.length need s.pipe.queue.fits
  rw [records] at grown
  refine ⟨written,grown,?_,fun i mem => ?_⟩
  · simp only [counters,Buffer.append,records]
    omega
  · have := below i mem
    simp only [counters]
    omega

end Merger

structure Measures (q : Buffer β) (c : Sizes) : Prop where
  length : c.sendQueueLen.toNat = q.cells.length
  size : c.sendQueueSize.toNat = q.capacity
  small : q.capacity < 4 * maxQueued

theorem addAppends {q : Buffer β} {c : Sizes} (measures : Measures q c) {buf : List β}
    (room : q.cells.length + buf.length ≤ maxQueued) :
    Measures (q.append buf) (addToQueue (UInt32.ofNat buf.length) c) := by
  obtain ⟨length,size,small⟩ := measures
  have below := growBelow room small
  unfold maxQueued at room small
  have len : (UInt32.ofNat buf.length).toNat = buf.length :=
    UInt32.toNat_ofNat_of_lt' (show _ < 4294967296 by omega)
  have sum : (c.sendQueueLen + UInt32.ofNat buf.length).toNat = q.cells.length + buf.length := by
    rw [UInt32.toNat_add,len,length,Nat.mod_eq_of_lt (by omega)]
  refine ⟨by rw [addToQueue,sum,appendCells,List.length_append],?_,below⟩
  simp only [addToQueue,Buffer.append,grow,gt_iff_lt,UInt32.lt_iff_toNat_lt,sum,size]
  split
  · have wider : (c.sendQueueSize + UInt32.ofNat buf.length).toNat = q.capacity + buf.length := by
      rw [UInt32.toNat_add,len,size,Nat.mod_eq_of_lt (by omega)]
    rw [UInt32.toNat_mul,wider]
    exact Nat.mod_eq_of_lt (show (q.capacity + buf.length) * 2 < 4294967296 by omega)
  · exact size

theorem takeDrains (size : Int) (zero : β) {s : SendQueue.Sender β} {c : Sizes}
    (measures : Measures s.queue c) :
    Measures (SendQueue.takeBatch size zero s).queue (doSend s.lastok c) ∧
      (SendQueue.takeBatch size zero s).queue.capacity = s.queue.capacity := by
  obtain ⟨length,size,small⟩ := measures
  have none_queued : c.sendQueueLen = 0 ↔ s.queue.cells.length = 0 := by
    rw [← length,← UInt32.toNat_inj]; rfl
  unfold SendQueue.takeBatch doSend
  by_cases ok : s.lastok
  · rw [if_pos ok,if_pos ok]
    by_cases nothing : s.queue.cells.length = 0
    · rw [if_pos nothing,if_pos (none_queued.mpr nothing)]
      split <;> exact ⟨⟨length,size,small⟩,rfl⟩
    · rw [if_neg nothing,if_neg (mt none_queued.mp nothing)]
      exact ⟨⟨by rw [shrinkAll]; rfl,size,small⟩,rfl⟩
  · rw [if_neg ok,if_neg ok]
    exact ⟨⟨length,size,small⟩,rfl⟩

theorem stepMeasures {size : Int} {zero : β} {s : Sending β} {a : SendQueue.Act β}
    {p : SendQueue.Sender β} (measures : Measures s.sender.queue s.sizes) (fits : BufFits s a)
    (h : SendQueue.step size zero s.sender a = some p) :
    Measures p.queue (sized s.sender s.sizes a) ∧ s.sender.queue.capacity ≤ p.queue.capacity := by
  cases a with
  | addToQueue buf =>
    obtain rfl := SendQueue.stepAdd h
    exact ⟨addAppends measures fits,growKeeps _ _ _⟩
  | connect fd =>
    obtain ⟨-,⟨-,rfl⟩ | ⟨-,⟨-,rfl⟩ | ⟨n,-,rfl⟩⟩⟩ := SendQueue.stepConnect h <;>
      exact ⟨measures,Nat.le_refl _⟩
  | take =>
    obtain ⟨-,rfl⟩ := SendQueue.stepTake h
    obtain ⟨drained,same⟩ := takeDrains size zero measures
    exact ⟨drained,Nat.le_of_eq same.symm⟩
  | send sendedlen =>
    obtain ⟨-,rfl⟩ := SendQueue.stepSend h
    unfold SendQueue.afterSend
    split <;> exact ⟨measures,Nat.le_refl _⟩

theorem measuresSuffice {size : Int} {zero : β} {s : Sending β} {a : SendQueue.Act β}
    {t : Sending β} (measures : Measures s.sender.queue s.sizes) (fits : BufFits s a)
    (h : sendingStep size zero s a = some t) : BufSufficient s a := by
  obtain ⟨p,moved,rfl⟩ := Option.map_eq_some_iff.mp h
  obtain ⟨⟨length,cap,-⟩,keeps⟩ := stepMeasures measures fits moved
  have held := p.queue.fits
  refine ⟨by rw [UInt32.le_iff_toNat_le]; omega,by
    rw [UInt32.le_iff_toNat_le,measures.size]; omega,?_⟩
  rintro buf rfl
  obtain rfl := SendQueue.stepAdd moved
  rw [appendCells,List.length_append,← measures.length] at length
  have grown : (s.sender.queue.append buf).capacity =
      grow s.sizes.sendQueueLen.toNat buf.length s.sizes.sendQueueSize.toNat := by
    rw [measures.length,measures.size]; rfl
  rw [appendCells,List.length_append,← measures.length] at held
  refine ⟨length,cap.trans grown,by omega,?_⟩
  intro i mem
  obtain ⟨j,below,rfl⟩ := List.mem_map.mp mem
  have inside := List.mem_range.mp below
  have room : (UInt32.ofNat buf.length).toNat ≤ buf.length := by
    simp only [UInt32.toNat_ofNat']
    exact Nat.mod_le _ _
  omega

/-- Both queues are grown enough in every run whose appends leave at most 2^29 bytes queued:
the capacity is computed exactly, never shrinks, holds the queue after every step, and lies
above every index that an append writes. -/
theorem growthSuffices {l : NotifyQueue.Limits} (limit : 0 ≤ l.maxDataLen) {need : Nat}
    (least : 4 ≤ need) {enc : ρ → List β} (records : ∀ call, (enc call).length = need)
    (size : Int) (zero : β) :
    (∀ acts, Runs.Meets (noticesStep l enc need) (NoticeFits need) initialNotices acts →
      Runs.Meets (noticesStep l enc need) (NoticeSufficient need) initialNotices acts) ∧
    (∀ acts, Runs.Meets (sendingStep size zero) BufFits initialSending acts →
      Runs.Meets (sendingStep size zero) BufSufficient initialSending acts) := by
  constructor
  · intro acts
    exact Runs.meetsUnder (countsSuffice limit least records) (stepCounts limit least records)
      (initialCounts l)
  · intro acts
    refine Runs.meetsUnder (I := fun s => Measures s.sender.queue s.sizes)
      (fun s a t measures fits moved => measuresSuffice measures fits moved) ?_
      ⟨rfl,rfl,show 0 < 4 * maxQueued by decide⟩
    intro s a t measures fits moved
    obtain ⟨p,stepped,rfl⟩ := Option.map_eq_some_iff.mp moved
    exact (stepMeasures measures fits stepped).1

def noticeRun : List (NotifyQueue.Act (Records.Notice 1)) :=
  [.notify (Records.oneByte 7,true),.notify (Records.oneByte 9,false),.enter,.testEmpty,.testLong,
    .setLimit,.dequeue,.notify (Records.oneByte 7,false)]

def packetRun : List (SendQueue.Act UInt8) :=
  [.connect (some 3),.addToQueue [1,2,3],.take,.addToQueue [4,5,6],.send 3,.take]

theorem growthSufficesRuns :
    (Runs.Meets (noticesStep ⟨5,ascii "ok"⟩ Records.record 4) (NoticeSufficient 4) initialNotices
        noticeRun ∧
      Runs.Meets (sendingStep 3 (0 : UInt8)) BufSufficient initialSending packetRun) ∧
    (Runs.exec (noticesStep ⟨5,ascii "ok"⟩ Records.record 4) initialNotices noticeRun).map
        Notices.counters = some (some ⟨7,8⟩) ∧
      (Runs.exec (sendingStep 3 (0 : UInt8)) initialSending packetRun).map Sending.sizes =
        some ⟨0,6⟩ :=
  have enough := growthSuffices (l := ⟨5,ascii "ok"⟩) (by decide) (Nat.le_refl 4)
    (@Records.recordLength 1) 3 0
  ⟨⟨enough.1 noticeRun (by decide +kernel),enough.2 packetRun (by decide +kernel)⟩,
    by decide +kernel,by decide +kernel⟩

end RfidStation.QueueGrowth
