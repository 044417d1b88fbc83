import RfidStation.NotifyQueue

/-! commit_notify_queue under configuration reloads. sighup_action may replace the limits
between any two steps of the pipeline, so that the test of the queue's length and the
send_len set after it can read different values of http.max_data_len. -/
namespace RfidStation.DequeueRange
open Buffers NotifyQueue

structure State (ρ β : Type) where
  limits : Limits
  pipe : Pipe ρ β
  deriving DecidableEq, Repr

inductive Act (ρ : Type) where
  | reload (l : Limits)
  | pipe (act : NotifyQueue.Act ρ)
  deriving DecidableEq, Repr

variable {ρ β : Type}

def initial (l : Limits) : State ρ β := ⟨l,NotifyQueue.initial⟩

def step (enc : ρ → List β) (s : State ρ β) : Act ρ → Option (State ρ β)
  | .reload l => if 0 ≤ l.maxDataLen then some {s with limits := l} else none
  | .pipe act => (NotifyQueue.step s.limits enc s.pipe act).map (fun p => {s with pipe := p})

theorem stepReload {enc : ρ → List β} {s t : State ρ β} {l}
    (h : step enc s (.reload l) = some t) : 0 ≤ l.maxDataLen ∧ t = {s with limits := l} :=
  Runs.guarded h

theorem stepPipe {enc : ρ → List β} {s t : State ρ β} {act}
    (h : step enc s (.pipe act) = some t) :
    ∃ p, NotifyQueue.step s.limits enc s.pipe act = some p ∧ t = {s with pipe := p} := by
  obtain ⟨p,moved,rfl⟩ := Option.map_eq_some_iff.mp h
  exact ⟨p,moved,rfl⟩

def InRange (s : State ρ β) (a : Act ρ) : Prop :=
  a = .pipe .dequeue → 0 < s.pipe.chunk ∧ s.pipe.chunk ≤ s.pipe.queueLen ∧
    s.pipe.queueLen ≤ s.pipe.queue.capacity ∧ 0 ≤ s.pipe.queueLen - s.pipe.chunk

/-- No reload has raised the limit above the queue that was found longer than it. -/
def NotRaised (s : State ρ β) (a : Act ρ) : Prop :=
  a = .pipe .setLimit → s.limits.maxDataLen ≤ s.pipe.queueLen

instance (s : State ρ β) (a : Act ρ) [DecidableEq ρ] : Decidable (NotRaised s a) :=
  inferInstanceAs (Decidable (_ → _))

instance (s : State ρ β) (a : Act ρ) [DecidableEq ρ] : Decidable (InRange s a) :=
  inferInstanceAs (Decidable (_ → _))

structure Ready (s : State ρ β) : Prop where
  limit : 0 ≤ s.limits.maxDataLen
  nonempty : s.pipe.pc = .testLong ∨ s.pipe.pc = .report ∨ s.pipe.pc = .lock → 0 < s.pipe.queueLen

def Bounded (s : State ρ β) : Prop :=
  s.pipe.pc = .lock → 0 ≤ s.pipe.sendLen ∧ s.pipe.sendLen ≤ s.pipe.queueLen

theorem initialReady {l : Limits} (limit : 0 ≤ l.maxDataLen) : Ready (initial (ρ := ρ) (β := β) l) :=
  ⟨limit,by simp [initial,NotifyQueue.initial]⟩

section Points
variable {l : Limits} {enc : ρ → List β} {s t : Pipe ρ β}

theorem enterPc (h : NotifyQueue.step l enc s .enter = some t) :
    t.pc = .send ∨ t.pc = .testEmpty := by
  obtain ⟨-,rfl⟩ := stepEnter h
  simp only
  split
  · exact .inl rfl
  · exact .inr rfl

theorem testEmptyPc (h : NotifyQueue.step l enc s .testEmpty = some t) :
    t.pc = .idle ∨ t.pc = .testLong ∧ 0 < t.queueLen := by
  obtain ⟨-,rfl⟩ := stepTestEmpty h
  simp only
  split
  · exact .inl rfl
  · exact .inr ⟨rfl,Nat.pos_of_ne_zero ‹_›⟩

theorem dequeuePc (h : NotifyQueue.step l enc s .dequeue = some t) :
    s.pc = .lock ∧ (t.pc = .send ∨ t.pc = .overrun) := by
  obtain ⟨here,rfl⟩ := Runs.guarded h
  refine ⟨here,?_⟩
  split
  · exact .inl rfl
  · exact .inr rfl

theorem uploadPc {reply : Reply} (h : NotifyQueue.step l enc s (.upload reply) = some t) :
    t.pc = .idle := by
  obtain ⟨body,-,-,rfl⟩ := stepUpload h
  split <;> rfl

end Points

theorem grown (b : Buffer β) (xs : List β) : b.cells.length ≤ (b.append xs).cells.length := by
  rw [appendCells,List.length_append]
  omega

theorem stepReady {enc : ρ → List β} {s t : State ρ β} {a} (ready : Ready s)
    (h : step enc s a = some t) : Ready t := by
  obtain ⟨limit,nonempty⟩ := ready
  cases a with
  | reload l =>
    obtain ⟨fine,rfl⟩ := stepReload h
    exact ⟨fine,nonempty⟩
  | pipe act =>
    obtain ⟨p,moved,rfl⟩ := stepPipe h
    refine ⟨limit,?_⟩
    cases act with
    | notify call =>
      obtain rfl := stepNotify moved
      exact fun here => Nat.lt_of_lt_of_le (nonempty here) (grown ..)
    | enter =>
      obtain sending | testing := enterPc moved
      · simp [sending]
      · simp [testing]
    | testEmpty =>
      obtain idle | ⟨-,held⟩ := testEmptyPc moved
      · simp [idle]
      · exact fun _ => held
    | testLong =>
      obtain ⟨here,rfl⟩ := stepTestLong moved
      intro _
      have held := nonempty (.inl here)
      split <;> exact held
    | setLimit =>
      obtain ⟨here,rfl⟩ := stepSetLimit moved
      exact fun _ => nonempty (.inr (.inl here))
    | dequeue =>
      obtain ⟨-,sent | empty⟩ := dequeuePc moved
      · simp [sent]
      · simp [empty]
    | upload reply => simp [uploadPc moved]

theorem stepBounded {enc : ρ → List β} {s t : State ρ β} {a} (ready : Ready s) (bounded : Bounded s)
    (fine : NotRaised s a) (h : step enc s a = some t) : Bounded t := by
  cases a with
  | reload l =>
    obtain ⟨-,rfl⟩ := stepReload h
    exact bounded
  | pipe act =>
    obtain ⟨p,moved,rfl⟩ := stepPipe h
    cases act with
    | notify call =>
      obtain rfl := stepNotify moved
      intro here
      obtain ⟨nonneg,below⟩ := bounded here
      have := grown s.pipe.queue (enc call)
      exact ⟨nonneg,by simp only [Pipe.queueLen] at *; omega⟩
    | enter =>
      obtain sending | testing := enterPc moved
      · simp [Bounded,sending]
      · simp [Bounded,testing]
    | testEmpty =>
      obtain idle | ⟨testing,-⟩ := testEmptyPc moved
      · simp [Bounded,idle]
      · simp [Bounded,testing]
    | testLong =>
      obtain ⟨-,rfl⟩ := stepTestLong moved
      intro here
      split at here
      · simp at here
      · rename_i short
        simp only [if_neg short]
        exact ⟨Int.le_refl 0,Int.natCast_nonneg _⟩
    | setLimit =>
      obtain ⟨-,rfl⟩ := stepSetLimit moved
      exact fun _ => ⟨ready.limit,fine rfl⟩
    | dequeue =>
      obtain ⟨-,sent | empty⟩ := dequeuePc moved
      · simp [Bounded,sent]
      · simp [Bounded,empty]
    | upload reply => simp [Bounded,uploadPc moved]

theorem inRange {s : State ρ β} (here : s.pipe.pc = .lock) (ready : Ready s) (bounded : Bounded s)
    (a : Act ρ) : InRange s a := by
  rintro rfl
  have some_queue := ready.nonempty (.inr (.inr here))
  have bounds := bounded here
  have fits : s.pipe.queueLen ≤ s.pipe.queue.capacity := s.pipe.queue.fits
  unfold Pipe.chunk
  split <;> omega

theorem dequeueGranted {enc : ρ → List β} {s t : State ρ β} {a} (ready : Ready s)
    (bounded : Bounded s) (h : step enc s a = some t) : InRange s a := by
  rintro rfl
  obtain ⟨p,moved,-⟩ := stepPipe h
  exact inRange (dequeuePc moved).1 ready bounded _ rfl

theorem inRangeAtOnce {enc : ρ → List β} {s : State ρ β} (ready : Ready s)
    (here : s.pipe.pc = .report) :
    Runs.Meets (step enc) InRange s [.pipe .setLimit,.pipe .dequeue] ↔
      s.limits.maxDataLen ≤ s.pipe.queueLen := by
  let locked : State ρ β := {s with pipe := {s.pipe with sendLen := s.limits.maxDataLen, pc := .lock}}
  have set : step enc s (.pipe .setLimit) = some locked := by
    simp only [step,NotifyQueue.step,if_pos here,Option.map_some]
    rfl
  constructor
  · intro meets
    by_contra raised
    have copied : ∃ t, step enc locked (.pipe .dequeue) = some t := by
      simp only [step,NotifyQueue.step,locked,if_true,Option.map_some]
      exact ⟨_,rfl⟩
    obtain ⟨t,copied⟩ := copied
    obtain ⟨-,below,-⟩ := ((meets locked set).2 t copied).1 rfl
    have positive : s.limits.maxDataLen ≠ 0 := by omega
    simp only [Pipe.chunk,locked,if_neg positive] at below
    exact raised below
  · intro kept t moved
    obtain rfl := Option.some.inj (set.symm.trans moved)
    refine ⟨by simp [InRange],fun u _ => ⟨inRange rfl ?_ ?_ _,trivial⟩⟩
    · exact ⟨ready.limit,fun _ => ready.nonempty (.inr (.inl here))⟩
    · exact fun _ => ⟨ready.limit,kept⟩

/-- In a run in which no reload raises the limit between its two reads above the queue, every
copy is in range; and whenever the second read is about to be made, the copy directly after it
is in range exactly if the limit is not above the queue. -/
theorem inRangeIfNotRaised (l : Limits) (limit : 0 ≤ l.maxDataLen) (enc : ρ → List β)
    (acts : List (Act ρ)) :
    (Runs.Meets (step enc) NotRaised (initial l) acts →
      Runs.Meets (step enc) InRange (initial l) acts) ∧
    ∀ s, Runs.exec (step enc) (initial l) acts = some s → s.pipe.pc = .report →
      (Runs.Meets (step enc) InRange s [.pipe .setLimit,.pipe .dequeue] ↔
        s.limits.maxDataLen ≤ s.pipe.queueLen) := by
  constructor
  · refine Runs.meetsUnder (I := fun s => Ready s ∧ Bounded s) ?_ ?_
      ⟨initialReady limit,by simp [Bounded,initial,NotifyQueue.initial]⟩
    · exact fun s a t held _ h => dequeueGranted held.1 held.2 h
    · exact fun s a t held fine h => ⟨stepReady held.1 h,stepBounded held.1 held.2 fine h⟩
  · intro s run here
    exact inRangeAtOnce (Runs.invariant (fun _ _ _ => stepReady) (initialReady limit) run) here

def limitOf (n : Nat) : Limits := ⟨n,[]⟩

-- Eight bytes are queued; the limit is 5 when they are tested and 100 when send_len is set.
def raisedBetweenReads : List (Act (List Nat)) :=
  [.pipe (.notify [1,2,3,4]),.pipe (.notify [5,6,7,8]),.pipe .enter,.pipe .testEmpty,
    .pipe .testLong,.reload (limitOf 100),.pipe .setLimit,.pipe .dequeue]

theorem inRangeIfNotRaisedLower :
    Runs.Meets (step id) InRange (initial (limitOf 5))
      (raisedBetweenReads.take 5 ++ [.reload (limitOf 3),.pipe .setLimit,.pipe .dequeue]) :=
  (inRangeIfNotRaised (limitOf 5) (by decide) id _).1 (by decide)

theorem raisedOverrun : ¬ ∀ (l : Limits) (acts : List (Act (List Nat))), 0 ≤ l.maxDataLen →
    Runs.Meets (step id) InRange (initial l) acts := by
  intro claim
  exact absurd (claim (limitOf 5) raisedBetweenReads (by decide)) (by decide)

end RfidStation.DequeueRange
