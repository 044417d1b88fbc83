import RfidStation.ChannelList

/-! cron_channel_switch (receive/nrf.c). The thread goes round the channels of the list; it
leaves the radio alone while the list names one channel, and the same as before. -/
namespace RfidStation.ChannelSwitch
open Cstr ChannelList

inductive Call where
  | initNrf (station : UInt8)
  | usleep (usec : Int)
  deriving DecidableEq, Repr

structure Switcher where
  prevNumChannels : Nat
  prevLastChannel : Int
  currentChannel : UInt8
  calls : List Call
  deriving DecidableEq, Repr

structure Settings where
  interval : Bytes
  channels : Bytes
  deriving DecidableEq, Repr

def initial : Switcher := ⟨0,-1,0,[]⟩

def visit (usec : Int) (s : Switcher) (channel : Nat) : Switcher := {s with
  currentChannel := UInt8.ofNat channel
  calls := s.calls ++ [.initNrf (UInt8.ofNat channel),.usleep usec]}

def switchChannels (bitmap : Nat → Bool) (usec : Int) (s : Switcher) : Switcher :=
  (List.range channelMax).foldl (fun s channel => if bitmap channel then visit usec s channel else s) s

def switchInterval (interval : Bytes) : Int :=
  let usec := atoi interval
  if usec < 10000 then 10000 else usec

def tune (marks : Marks) (usec : Int) (s : Switcher) : Switcher :=
  if marks.numChannels = 0 then {s with calls := s.calls ++ [.usleep usec]}
  else if marks.numChannels = 1 ∧ s.prevNumChannels = 1 ∧ marks.lastChannel = s.prevLastChannel then s
  else switchChannels marks.bitmap usec s

def iterate (wrap : Int → Int) (s : Switcher) (settings : Settings) : Switcher :=
  let marks := (scanChannels wrap settings.channels).toMarks
  {tune marks (switchInterval settings.interval) s with
    prevNumChannels := marks.numChannels, prevLastChannel := marks.lastChannel}

def station : Call → Option UInt8
  | .initNrf station => some station
  | .usleep _ => none

def tuned (s : Switcher) : Option UInt8 := (s.calls.filterMap station).getLast?

def On (s : Switcher) (channel : Nat) : Prop :=
  s.currentChannel = UInt8.ofNat channel ∧ tuned s = some (UInt8.ofNat channel)

structure Largest (bitmap : Nat → Bool) (channel : Nat) : Prop where
  inside : channel < channelMax
  marked : bitmap channel = true
  above : ∀ c < channelMax, bitmap c = true → c ≤ channel

def Only (bitmap : Nat → Bool) (channel : Nat) : Prop :=
  ∀ c < channelMax, bitmap c = true ↔ c = channel

structure Tunes (bitmap : Nat → Bool) (before after : Switcher) : Prop where
  largest : ∃ channel, Largest bitmap channel ∧ On after channel
  visits : ∃ made, after.calls = before.calls ++ made ∧ ∀ c < channelMax, bitmap c = true →
    .initNrf (UInt8.ofNat c) ∈ made ∨ Only bitmap c ∧ On before c
  same : ∀ usec, after.currentChannel = (switchChannels bitmap usec before).currentChannel ∧
    tuned after = tuned (switchChannels bitmap usec before)

structure Counted (m : Marks) : Prop where
  inside : ∀ c, m.bitmap c = true → c < channelMax
  none : m.numChannels = 0 → ∀ c, m.bitmap c = false
  last : m.numChannels ≠ 0 → ∃ c, m.lastChannel = Int.ofNat c ∧ m.bitmap c = true
  single : m.numChannels = 1 → ∀ c, m.bitmap c = true → Int.ofNat c = m.lastChannel

theorem markCounted {m : Marks} {channel : Int} (counted : Counted m) (low : 0 ≤ channel)
    (high : channel < channelMax) : Counted (m.mark channel) := by
  obtain ⟨n,rfl⟩ := Int.eq_ofNat_of_zero_le low
  refine ⟨fun c marked => ?_,nofun,fun _ => ⟨n,rfl,?_⟩,fun one c marked => ?_⟩
  · rcases Bool.or_eq_true_iff.mp marked with new | old
    · have same := Int.ofNat_inj.mp (beq_iff_eq.mp new)
      omega
    · exact counted.inside c old
  · exact Bool.or_eq_true_iff.mpr (.inl (beq_self_eq_true _))
  · rcases Bool.or_eq_true_iff.mp marked with new | old
    · exact beq_iff_eq.mp new
    · rw [counted.none (Nat.succ.inj one) c] at old
      cases old

theorem separatorCounted {s : Scan} (counted : Counted s.toMarks) : Counted (separator s).toMarks := by
  simp only [separator]
  split
  · rename_i marks
    simp only [Bool.and_eq_true,decide_eq_true_eq] at marks
    exact markCounted counted marks.1.2 marks.2
  · exact counted

theorem scanCounted (wrap : Int → Int) (channels : Bytes) : Counted (scanChannels wrap channels).toMarks := by
  refine separatorCounted (List.foldlRecOn (motive := fun s : Scan => Counted s.toMarks) _ _ ?_ ?_)
  · exact ⟨nofun,fun _ _ => rfl,fun some_channel => (some_channel rfl).elim,nofun⟩
  · intro s counted c _
    rw [scanChar]
    split
    · exact counted
    · exact separatorCounted counted

def listed (bitmap : Nat → Bool) : List Nat := (List.range channelMax).filter bitmap

theorem listedMem {bitmap : Nat → Bool} {c : Nat} : c ∈ listed bitmap ↔ c < channelMax ∧ bitmap c = true := by
  rw [listed,List.mem_filter,List.mem_range]

theorem switchVisits (bitmap : Nat → Bool) (usec : Int) (s : Switcher) :
    switchChannels bitmap usec s = (listed bitmap).foldl (visit usec) s := by
  rw [switchChannels,listed,List.foldl_filter]

theorem visitsMade (usec : Int) (channels : List Nat) (s : Switcher) :
    ∃ made, (channels.foldl (visit usec) s).calls = s.calls ++ made ∧
      ∀ c ∈ channels, .initNrf (UInt8.ofNat c) ∈ made := by
  induction channels generalizing s with
  | nil => exact ⟨[],(List.append_nil _).symm,nofun⟩
  | cons channel rest ih =>
    obtain ⟨made,calls,all⟩ := ih (visit usec s channel)
    refine ⟨[.initNrf (UInt8.ofNat channel),.usleep usec] ++ made,?_,?_⟩
    · rw [List.foldl_cons,calls,visit,List.append_assoc]
    · exact List.forall_mem_cons.mpr ⟨List.mem_cons_self,fun c mem => List.mem_append_right _ (all c mem)⟩

theorem visitOn (usec : Int) (s : Switcher) (channel : Nat) : On (visit usec s channel) channel := by
  refine ⟨rfl,?_⟩
  rw [tuned,visit,List.filterMap_append]
  exact List.getLast?_concat

theorem largestListed {bitmap : Nat → Bool} {c : Nat} (inside : c < channelMax) (marked : bitmap c = true) :
    ∃ front channel, listed bitmap = front ++ [channel] ∧ Largest bitmap channel := by
  rcases List.eq_nil_or_concat (listed bitmap) with none | ⟨front,channel,shape⟩
  · have mem := listedMem.mpr ⟨inside,marked⟩
    rw [none] at mem
    cases mem
  · rw [List.concat_eq_append] at shape
    have sorted : (listed bitmap).Pairwise (· < ·) := List.pairwise_lt_range.filter _
    rw [shape] at sorted
    have mem : channel ∈ listed bitmap := by simp [shape]
    obtain ⟨bound,set⟩ := listedMem.mp mem
    refine ⟨front,channel,shape,bound,set,fun d small other => ?_⟩
    have found := listedMem.mpr ⟨small,other⟩
    rw [shape] at found
    rcases List.mem_append.mp found with earlier | last
    · exact Nat.le_of_lt ((List.pairwise_append.mp sorted).2.2 d earlier channel List.mem_cons_self)
    · exact Nat.le_of_eq (List.mem_singleton.mp last)

theorem largestUnique {bitmap : Nat → Bool} {a b : Nat} (first : Largest bitmap a) (second : Largest bitmap b) :
    a = b :=
  Nat.le_antisymm (second.above a first.inside first.marked) (first.above b second.inside second.marked)

theorem switchOn {bitmap : Nat → Bool} {channel : Nat} (largest : Largest bitmap channel) (usec : Int)
    (s : Switcher) : On (switchChannels bitmap usec s) channel := by
  obtain ⟨front,last,shape,largest'⟩ := largestListed largest.inside largest.marked
  rw [switchVisits,shape,List.foldl_append,largestUnique largest largest']
  exact visitOn usec _ last

def Kept (s : Switcher) : Prop := s.prevNumChannels = 1 →
  ∃ channel, s.prevLastChannel = Int.ofNat channel ∧ On s channel

section
variable {m : Marks} {s : Switcher}

theorem lastOnly (counted : Counted m) (single : m.numChannels = 1) :
    ∃ channel, m.lastChannel = Int.ofNat channel ∧ Only m.bitmap channel ∧ Largest m.bitmap channel := by
  obtain ⟨channel,last,marked⟩ := counted.last (by omega)
  have only (c : Nat) (other : m.bitmap c = true) : c = channel :=
    Int.ofNat_inj.mp ((counted.single single c other).trans last)
  refine ⟨channel,last,fun c _ => ⟨only c,fun same => same ▸ marked⟩,?_⟩
  exact ⟨counted.inside channel marked,marked,fun c _ other => Nat.le_of_eq (only c other)⟩

theorem tuneTunes (usec : Int) (counted : Counted m) (kept : Kept s) {c : Nat} (inside : c < channelMax)
    (marked : m.bitmap c = true) : Tunes m.bitmap s (tune m usec s) := by
  obtain ⟨_,channel,-,largest⟩ := largestListed inside marked
  rw [tune,if_neg (fun zero => by rw [counted.none zero c] at marked; cases marked)]
  split
  · rename_i skip
    obtain ⟨single,before,last⟩ := skip
    obtain ⟨only,named,alone,largest'⟩ := lastOnly counted single
    obtain ⟨same,prev,on⟩ := kept before
    obtain rfl : only = same := Int.ofNat_inj.mp (named.symm.trans (last.trans prev))
    refine ⟨⟨only,largest',on⟩,⟨[],(List.append_nil _).symm,fun d small set => .inr ?_⟩,fun usec => ?_⟩
    · rw [(alone d small).mp set]
      exact ⟨alone,on⟩
    · have switched := switchOn largest' usec s
      exact ⟨on.1.trans switched.1.symm,on.2.trans switched.2.symm⟩
  · refine ⟨⟨channel,largest,switchOn largest usec s⟩,?_,fun other => ?_⟩
    · obtain ⟨made,calls,all⟩ := visitsMade usec (listed m.bitmap) s
      rw [switchVisits]
      exact ⟨made,calls,fun d small set => .inl (all d (listedMem.mpr ⟨small,set⟩))⟩
    · have now := switchOn largest usec s
      have later := switchOn largest other s
      exact ⟨now.1.trans later.1.symm,now.2.trans later.2.symm⟩

theorem iterateKept (wrap : Int → Int) (kept : Kept s) (settings : Settings) :
    Kept (iterate wrap s settings) := by
  intro single
  have counted := scanCounted wrap settings.channels
  obtain ⟨channel,last,-,largest⟩ := lastOnly counted single
  obtain ⟨other,largest',on⟩ := (tuneTunes (switchInterval settings.interval) counted kept
    largest.inside largest.marked).largest
  rw [← largestUnique largest largest'] at on
  exact ⟨channel,last,on⟩

theorem runKept (wrap : Int → Int) (history : List Settings) : Kept (history.foldl (iterate wrap) initial) :=
  List.foldlRecOn _ _ (fun single => by cases single) (fun _ kept settings _ => iterateKept wrap kept settings)

end

/-- Whatever lists were read before, an iteration that finds a channel ends on the largest one
it has found, as if it had gone round all of them. -/
theorem iterationTunes (wrap : Int → Int) (history : List Settings) (settings : Settings) :
    let bitmap := (scanChannels wrap settings.channels).bitmap
    let before := history.foldl (iterate wrap) initial
    (∃ c < channelMax, bitmap c = true) → Tunes bitmap before (iterate wrap before settings) := by
  intro bitmap before ⟨c,inside,marked⟩
  have tunes := tuneTunes (switchInterval settings.interval)
    (scanCounted wrap settings.channels) (runKept wrap history) inside marked
  exact ⟨tunes.largest,tunes.visits,tunes.same⟩

theorem iterationTunesAgain :
    let settings : Settings := ⟨ascii "20000",ascii "40"⟩
    let before := iterate id initial settings
    Tunes (scanChannels id settings.channels).bitmap before (iterate id before settings) :=
  iterationTunes id [⟨ascii "20000",ascii "40"⟩] ⟨ascii "20000",ascii "40"⟩ ⟨40,by decide,by decide⟩

end RfidStation.ChannelSwitch
