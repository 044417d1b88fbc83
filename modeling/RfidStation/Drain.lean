import RfidStation.Conservation

/-! What commit_notify_queue (sender.c) does with a backlog once the cloud acknowledges every
upload and nothing new is notified: it goes out from the tail, in as many calls as it has
chunks. -/
namespace RfidStation.Drain
open Cstr Config Buffers NotifyQueue Conservation
variable {ρ β : Type} {enc : ρ → List β} {l : Limits} {s t : Pipe ρ β} {a : Act ρ}

def Quiet (l : Limits) : Act ρ → Prop
  | .notify _ => False
  | .upload reply => acknowledged l reply = true
  | .enter | .testEmpty | .testLong | .setLimit | .dequeue => True

instance (l : Limits) (a : Act ρ) : Decidable (Quiet l a) := by
  cases a <;> unfold Quiet <;> infer_instance

def isEnter : Act ρ → Bool
  | .enter => true
  | _ => false

def chunks (limit len : Nat) : Nat := if limit = 0 then min len 1 else (len + limit - 1) / limit

def need (l : Limits) (s : Pipe ρ β) : Nat :=
  (if s.sendBuf.isSome then 1 else 0) + chunks l.maxDataLen.toNat s.queueLen

def callsLeft (l : Limits) (s : Pipe ρ β) : Nat := if s.pc = .idle then need l s else need l s - 1

theorem chunksNone (limit : Nat) : chunks limit 0 = 0 := by
  unfold chunks
  split
  · rfl
  · exact Nat.div_eq_of_lt (by omega)

theorem chunksSome (limit : Nat) {len : Nat} (pos : 0 < len) : 0 < chunks limit len := by
  unfold chunks
  split
  · omega
  · exact Nat.div_pos (by omega) (by omega)

theorem chunksLess {limit len : Nat} (pos : 0 < limit) (long : limit < len) :
    chunks limit (len - limit) + 1 = chunks limit len := by
  have other : limit ≠ 0 := by omega
  rw [chunks,chunks,if_neg other,if_neg other,← Nat.add_div_right _ pos]
  congr 1
  omega

structure Fits (l : Limits) (s : Pipe ρ β) : Prop where
  sound : Sound l s
  short : s.pc = .lock → s.sendLen = 0 → l.maxDataLen ≠ 0 → s.queueLen ≤ l.maxDataLen

theorem stepFits (limit : 0 ≤ l.maxDataLen) (fits : Fits l s) (quiet : Quiet l a)
    (h : step l enc s a = some t) : Fits l t := by
  refine ⟨stepSound limit fits.sound h,?_⟩
  cases a with
  | notify call => exact quiet.elim
  | enter =>
    obtain ⟨-,rfl⟩ := stepEnter h
    cases s.sendBuf <;> simp
  | testEmpty =>
    obtain ⟨-,rfl⟩ := stepTestEmpty h
    by_cases empty : s.queueLen = 0 <;> simp [empty]
  | testLong =>
    obtain ⟨-,rfl⟩ := stepTestLong h
    split
    · simp
    · intro _ _ _
      simp only [Pipe.queueLen] at *
      omega
  | setLimit =>
    obtain ⟨-,rfl⟩ := stepSetLimit h
    exact fun _ zero other => absurd zero other
  | dequeue =>
    obtain ⟨-,rfl⟩ := stepDequeue limit fits.sound h
    simp
  | upload reply =>
    obtain ⟨body,-,-,rfl⟩ := stepUpload h
    split <;> simp

theorem dequeueLeft (limit : 0 ≤ l.maxDataLen) (sound : Sound l s) (here : s.pc = .lock) :
    chunks l.maxDataLen.toNat (s.queueLen - s.chunk.toNat) + 1 ≤ chunks l.maxDataLen.toNat s.queueLen := by
  have bounds := chunkBounds limit sound here
  have some_queue := sound.nonempty (.inr (.inr here))
  by_cases whole : s.chunk = s.queueLen
  · rw [whole,Int.toNat_natCast,Nat.sub_self,chunksNone]
    exact chunksSome _ some_queue
  · -- a part of the queue is taken only when the limit says so
    have part : s.sendLen = l.maxDataLen ∧ s.sendLen < s.queueLen := by
      rcases sound.bounded here with zero | part
      · exact absurd (if_pos zero) whole
      · exact part
    have same : s.chunk = l.maxDataLen := by
      rw [← part.1]
      refine if_neg (fun zero => whole (if_pos zero))
    rw [same] at bounds ⊢
    exact Nat.le_of_eq (chunksLess (by omega) (by omega))

theorem leftSame (same : need l t = need l s) (here : s.pc ≠ .idle)
    (over_ : t.pc = .idle → need l s = 0) : callsLeft l t ≤ callsLeft l s := by
  rw [callsLeft,callsLeft,same,if_neg here]
  split
  · rename_i done
    rw [over_ done]
  · exact Nat.le_refl _

theorem stepLeft (limit : 0 ≤ l.maxDataLen) (fits : Fits l s) (quiet : Quiet l a)
    (h : step l enc s a = some t) :
    callsLeft l t ≤ callsLeft l s - if isEnter a then 1 else 0 := by
  have sound := fits.sound
  cases a with
  | notify call => exact quiet.elim
  | enter =>
    obtain ⟨here,rfl⟩ := stepEnter h
    have begun : (if s.sendBuf.isSome then Pc.send else .testEmpty) ≠ .idle := by
      cases s.sendBuf <;> simp
    rw [callsLeft,callsLeft,if_pos here,if_neg begun]
    exact Nat.le_refl _
  | testEmpty =>
    obtain ⟨here,rfl⟩ := stepTestEmpty h
    have unsent := sound.unsent (by simp [here]) (by simp [here])
    refine leftSame (t := {s with pc := _}) rfl (by simp [here]) (fun over_ => ?_)
    have empty : s.queueLen = 0 := by
      by_cases none : s.queueLen = 0
      · exact none
      · simp [none] at over_
    rw [need,unsent,empty,chunksNone]
    rfl
  | testLong =>
    obtain ⟨here,rfl⟩ := stepTestLong h
    split
    · exact leftSame (t := {s with pc := _}) rfl (by simp [here]) (by simp)
    · exact leftSame (t := {s with sendLen := _, pc := _}) rfl (by simp [here]) (by simp)
  | setLimit =>
    obtain ⟨here,rfl⟩ := stepSetLimit h
    exact leftSame (t := {s with sendLen := _, pc := _}) rfl (by simp [here]) (by simp)
  | dequeue =>
    obtain ⟨here,rfl⟩ := stepDequeue limit sound h
    have less := dequeueLeft limit sound here
    have unsent := sound.unsent (by simp [here]) (by simp [here])
    have after : (s.queue.shrink s.chunk.toNat).cells.length = s.queueLen - s.chunk.toNat := by
      simp [Buffer.shrink,Pipe.queueLen]
    simp only [callsLeft,need,here,isEnter,unsent,Pipe.queueLen,after] at *
    simp
    omega
  | upload reply =>
    obtain ⟨body,here,pending,rfl⟩ := stepUpload h
    have ack : acknowledged l reply = true := quiet
    simp [callsLeft,need,here,isEnter,ack,pending,Pipe.queueLen]

structure Sending (l : Limits) (s t : Pipe ρ β) : Prop where
  fits : Fits l t
  order : ∃ bodies, t.acked ++ t.sendBuf.toList = s.acked ++ s.sendBuf.toList ++ bodies ∧
    t.queue.cells ++ bodies.reverse.flatten = s.queue.cells ∧
    (l.maxDataLen ≠ 0 → ∀ body ∈ bodies, (body.length : Int) ≤ l.maxDataLen)

theorem sendingStart (fits : Fits l s) : Sending l s s := ⟨fits,[],by simp,by simp,by simp⟩

theorem chunkWithin (fits : Fits l s) (here : s.pc = .lock) (limited : l.maxDataLen ≠ 0) :
    s.chunk ≤ l.maxDataLen := by
  unfold Pipe.chunk
  split
  · rename_i zero
    exact fits.short here zero limited
  · rcases fits.sound.bounded here with zero | part
    · contradiction
    · omega

theorem stepSending {u : Pipe ρ β} (limit : 0 ≤ l.maxDataLen) (sending : Sending l s t) (quiet : Quiet l a)
    (h : step l enc t a = some u) : Sending l s u := by
  obtain ⟨fits,bodies,order,cells,within⟩ := sending
  refine ⟨stepFits limit fits quiet h,?_⟩
  cases a with
  | notify call => exact quiet.elim
  | enter => obtain ⟨-,rfl⟩ := stepEnter h; exact ⟨bodies,order,cells,within⟩
  | testEmpty => obtain ⟨-,rfl⟩ := stepTestEmpty h; exact ⟨bodies,order,cells,within⟩
  | testLong => obtain ⟨-,rfl⟩ := stepTestLong h; split <;> exact ⟨bodies,order,cells,within⟩
  | setLimit => obtain ⟨-,rfl⟩ := stepSetLimit h; exact ⟨bodies,order,cells,within⟩
  | dequeue =>
    obtain ⟨here,rfl⟩ := stepDequeue limit fits.sound h
    have bounds := chunkBounds limit fits.sound here
    have unsent := fits.sound.unsent (by simp [here]) (by simp [here])
    refine ⟨bodies ++ [t.queue.tail t.chunk.toNat],?_,?_,fun limited body mem => ?_⟩
    · rw [unsent] at order
      simp only [Option.toList_none,List.append_nil,Option.toList_some] at order ⊢
      rw [order,List.append_assoc]
    · rw [List.reverse_append,List.flatten_append,List.reverse_singleton,List.flatten_singleton,
        ← List.append_assoc,shrinkTail]
      exact cells
    · rcases List.mem_append.mp mem with old | new
      · exact within limited body old
      · have count := chunkWithin fits here limited
        rw [List.mem_singleton.mp new,tailLength (by unfold Pipe.queueLen at bounds; omega)]
        omega
  | upload reply =>
    obtain ⟨body,-,pending,rfl⟩ := stepUpload h
    have ack : acknowledged l reply = true := quiet
    rw [if_pos ack]
    exact ⟨bodies,by rw [← order,pending]; simp,cells,within⟩

/-- From any state between two calls, with every upload acknowledged and nothing new notified,
as many calls as there are chunks send everything: first the pending body, then the queue from
its tail, in bodies within the limit. -/
theorem drained (conf : Conf) (limit : 0 ≤ (limits conf).maxDataLen) (before : List (Act ρ))
    (s : Pipe ρ β) (reached : Runs.exec (step (limits conf) enc) initial before = some s)
    (idle : s.pc = .idle) (acts : List (Act ρ)) (quiet : ∀ a ∈ acts, Quiet (limits conf) a)
    (t : Pipe ρ β) (run : Runs.exec (step (limits conf) enc) s acts = some t)
    (calls : need (limits conf) s ≤ acts.countP isEnter) (ended : t.pc = .idle) :
    t.queue.cells = [] ∧ t.sendBuf = none ∧ ∃ bodies,
      t.acked = s.acked ++ s.sendBuf.toList ++ bodies ∧
      bodies.reverse.flatten = s.queue.cells ∧
      ((limits conf).maxDataLen ≠ 0 → ∀ body ∈ bodies, (body.length : Int) ≤ (limits conf).maxDataLen) := by
  have fits : Fits (limits conf) s := ⟨(runEachOnce limit reached).1,by simp [idle]⟩
  have quietSteps : Runs.Meets (step (limits conf) enc) (fun _ a => Quiet (limits conf) a) s acts :=
    Runs.meetsOf quiet
  have left := Runs.workedOff (callsLeft (limits conf)) isEnter
    (fun _ _ _ fits quiet h => stepFits limit fits quiet h)
    (fun _ _ _ fits quiet h => stepLeft limit fits quiet h) fits quietSteps run
  have none : need (limits conf) t = 0 := by
    rw [callsLeft,callsLeft,if_pos idle,if_pos ended] at left
    omega
  have sending : Sending (limits conf) s t :=
    Runs.invariantUnder (fun _ _ _ sending quiet h => stepSending limit sending quiet h)
      (sendingStart fits) quietSteps run
  obtain ⟨-,bodies,order,cells,within⟩ := sending
  unfold need at none
  have unsent : t.sendBuf = Option.none := by
    cases buf : t.sendBuf with
    | none => rfl
    | some body => simp [buf] at none
  have empty : t.queue.cells = [] := by
    rcases Nat.eq_zero_or_pos t.queueLen with zero | pos
    · exact List.length_eq_zero_iff.mp zero
    · have := chunksSome (limits conf).maxDataLen.toNat pos
      omega
  rw [empty,List.nil_append] at cells
  rw [unsent,Option.toList_none,List.append_nil] at order
  exact ⟨empty,unsent,bodies,order,cells,within⟩

def answering : Conf := addConfig fiveBytes (ascii "cloud.ok_response") (ascii "OK")

def ok : Reply := ⟨2,some (ascii "OK")⟩

def twoCalls : List (Act (Records.Notice 1)) :=
  [.enter,.upload ok,.enter,.testEmpty,.testLong,.dequeue,.upload ok]

theorem drainedTwoCalls : ∃ s t,
    Runs.exec (step (limits answering) Records.record) initial backlog = some s ∧
    Runs.exec (step (limits answering) Records.record) s twoCalls = some t ∧
    t.acked = [ascii ".090.",ascii "071"] ∧ t.queue.cells = [] ∧ t.sendBuf = none := by
  have first : (Runs.exec (step (limits answering) Records.record) initial backlog).map
      (fun s => (s.pc,need (limits answering) s)) = some (.idle,2) := by decide +kernel
  have both : (Runs.exec (step (limits answering) Records.record) initial (backlog ++ twoCalls)).map
      (fun t => (t.pc,t.acked)) = some (.idle,[ascii ".090.",ascii "071"]) := by decide +kernel
  obtain ⟨s,reached,at_⟩ := Option.map_eq_some_iff.mp first
  rw [Runs.execAppend,reached,Option.bind_some] at both
  obtain ⟨t,run,last⟩ := Option.map_eq_some_iff.mp both
  obtain ⟨idle,calls⟩ := Prod.mk.inj at_
  obtain ⟨ended,acked⟩ := Prod.mk.inj last
  have empty := drained answering (by decide) backlog s reached idle twoCalls
    (by decide) t run (by rw [calls]; decide) ended
  exact ⟨s,t,reached,run,acked,empty.1,empty.2.1⟩

end RfidStation.Drain
