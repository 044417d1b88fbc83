import RfidStation.Config
import RfidStation.Lib.History
import RfidStation.Lib.Runs
import RfidStation.MsgLoop

/-! The watchdog of the merger over its receivers (watchdog.c). msg_loop stores
receiver_alive[r] = true with every packet it reads, while the watchdog tests, copies and clears
it, each as a step of its own. `log` is history, the newest event first. -/
namespace RfidStation.Watchdog
open Config MsgLoop

def getConf (conf : Conf) (name : String) : Int :=
  let value := getInt conf name
  if value < 1 then 1 else value

def receiverTimeout (conf : Conf) : Nat := (getConf conf "watchdog.receiver_timeout").toNat

inductive Event where
  | packet (r : Bool)
  | report (r : Bool)
  | checked (r : Bool)
  deriving DecidableEq, Repr

/- Program points of init_watchdog: in sleep, and the three accesses of check_receiver, first
for the master and then for the slave. -/
inductive Pc where
  | sleep | test (r : Bool) | copy (r : Bool) | clear (r : Bool)
  deriving DecidableEq, Repr

structure State where
  alive : Bool → Bool
  last : Bool → Bool
  relatime : Nat
  pc : Pc
  log : List Event

def initial : State := ⟨fun _ => false,fun _ => true,0,.sleep,[]⟩

-- `second` is a turn of the loop up to the test of relatime, `check` the next access.
inductive Act where
  | packet (r : Bool)
  | second
  | check
  deriving DecidableEq, Repr

def reports (s : State) (r : Bool) : Bool := !s.alive r && s.last r

def step (conf : Conf) (s : State) : Act → Option State
  | .packet r => some {s with alive := setAt s.alive r true, log := .packet r :: s.log}
  | .second => if s.pc = .sleep then some {s with
      relatime := s.relatime + 1
      pc := if (s.relatime + 1) % receiverTimeout conf = 0 then .test false else .sleep} else none
  | .check => match s.pc with
    | .sleep => none
    | .test r => some {s with
        pc := .copy r
        log := if reports s r then .report r :: s.log else s.log}
    | .copy r => some {s with last := setAt s.last r (s.alive r), pc := .clear r}
    | .clear r => some {s with
        alive := setAt s.alive r false
        pc := if r then .sleep else .test true
        log := .checked r :: s.log}

theorem receiverTimeoutPos (conf : Conf) : 0 < receiverTimeout conf := by
  unfold receiverTimeout getConf
  simp only
  split <;> omega

def isPacket (r : Bool) (e : Event) : Bool := e = .packet r
def isReport (r : Bool) (e : Event) : Bool := e = .report r
def isChecked (r : Bool) (e : Event) : Bool := e = .checked r

def Heard (r : Bool) (log : List Event) : Prop :=
  .report r ∈ log → History.since (isPacket r) (isReport r) log = true

def Justified (r : Bool) (e : Event) (older : List Event) : Prop :=
  e = .report r → Heard r older ∧ History.since (isPacket r) (isChecked r) older = false

structure Tracks (r : Bool) (s : State) : Prop where
  alive : s.alive r = History.since (isPacket r) (isChecked r) s.log
  heard : s.alive r = true → Heard r s.log
  last : s.last r = true → s.pc ≠ .copy r → Heard r s.log
  justified : History.Every (Justified r) s.log

theorem initialTracks (r : Bool) : Tracks r initial :=
  ⟨rfl,by simp [initial],by simp [initial,Heard],trivial⟩

theorem heardSkip {r : Bool} {e : Event} (packet : e ≠ .packet r) (report : e ≠ .report r)
    (log : List Event) : Heard r (e :: log) ↔ Heard r log := by
  rw [Heard,History.sinceSkip (by simp [isPacket,packet]) (by simp [isReport,report]),List.mem_cons,
    or_iff_right (Ne.symm report)]
  rfl

theorem tracksOther {r : Bool} {s t : State} (tracks : Tracks r s) (alive : t.alive r = s.alive r)
    (last : t.last r = s.last r) (pc : s.pc ≠ .copy r)
    (log : t.log = s.log ∨ ∃ e, t.log = e :: s.log ∧ e ≠ .packet r ∧ e ≠ .report r ∧ e ≠ .checked r) :
    Tracks r t := by
  rcases log with same | ⟨e,same,packet,report,checked⟩
  · exact ⟨by rw [alive,same]; exact tracks.alive,by rw [alive,same]; exact tracks.heard,
      by rw [last,same]; exact fun up _ => tracks.last up pc,by rw [same]; exact tracks.justified⟩
  · have heard := heardSkip packet report s.log
    refine ⟨?_,fun up => ?_,fun up _ => ?_,?_⟩
    · rw [alive,same,History.sinceSkip (by simp [isPacket,packet]) (by simp [isChecked,checked])]
      exact tracks.alive
    · rw [same]; exact heard.mpr (tracks.heard (alive ▸ up))
    · rw [same]; exact heard.mpr (tracks.last (last ▸ up) pc)
    · rw [same]; exact ⟨fun now => absurd now report,tracks.justified⟩

theorem packetTracks {r q : Bool} {s t : State} (tracks : Tracks r s)
    (same : t = {s with alive := setAt s.alive q true, log := .packet q :: s.log}) : Tracks r t := by
  subst same
  by_cases own : q = r
  · subst q
    have now : Heard r (.packet r :: s.log) := fun _ => by simp [History.since,isPacket]
    exact ⟨by simp [History.since,isPacket],fun _ => now,fun _ _ => now,by simp [Justified],
      tracks.justified⟩
  · by_cases copying : s.pc = .copy r
    · -- the copy reads the flag of this receiver, which another one's packet leaves alone
      have heard := heardSkip (r := r) (e := .packet q) (by simpa using own) (by simp) s.log
      refine ⟨?_,fun up => heard.mpr (tracks.heard ?_),fun _ elsewhere => absurd copying elsewhere,
        by simp [Justified],tracks.justified⟩
      · rw [History.sinceSkip (by simpa [isPacket] using own) (by simp [isChecked]),← tracks.alive]
        exact setAtOther _ _ (Ne.symm own)
      · rw [← up]; exact (setAtOther _ _ (Ne.symm own)).symm
    · exact tracksOther tracks (setAtOther _ _ (Ne.symm own)) rfl copying
        (.inr ⟨.packet q,rfl,by simpa using own,by simp,by simp⟩)

theorem testTracks {r : Bool} {s t : State} (tracks : Tracks r s) (here : s.pc = .test r)
    (same : t = {s with
      pc := .copy r
      log := if reports s r then .report r :: s.log else s.log}) : Tracks r t := by
  subst same
  cases dead : reports s r with
  | false => exact ⟨tracks.alive,tracks.heard,fun _ at_ => absurd rfl at_,tracks.justified⟩
  | true =>
    simp only [reports,Bool.and_eq_true,Bool.not_eq_true'] at dead
    refine ⟨?_,fun up => ?_,fun _ at_ => absurd rfl at_,fun _ => ⟨?_,?_⟩,tracks.justified⟩
    · exact tracks.alive.trans (History.sinceSkip (by simp [isPacket]) (by simp [isChecked]) _).symm
    · exact absurd (dead.1.symm.trans up) (by simp)
    · exact tracks.last dead.2 (by simp [here])
    · rw [← tracks.alive]; exact dead.1

theorem stepTracks {conf : Conf} {r : Bool} {s t : State} {a : Act} (tracks : Tracks r s)
    (h : step conf s a = some t) : Tracks r t := by
  cases a with
  | packet q => exact packetTracks tracks (Option.some.inj h).symm
  | second =>
    obtain ⟨here,rfl⟩ := Runs.guarded h
    exact tracksOther tracks rfl rfl (by simp [here]) (.inl rfl)
  | check =>
    simp only [step] at h
    split at h <;> try contradiction
    all_goals
      rename_i q here
      have next := (Option.some.inj h).symm
      by_cases own : q = r
    · subst q; exact testTracks tracks here next
    · subst next
      refine tracksOther tracks rfl rfl (by simp [here]) ?_
      cases dead : reports s q
      · exact .inl rfl
      · exact .inr ⟨.report q,rfl,by simp,by simpa using own,by simp⟩
    · subst q next
      refine ⟨tracks.alive,tracks.heard,fun up _ => tracks.heard ?_,tracks.justified⟩
      rw [← up]; exact (setAtSame _ _ _).symm
    · subst next
      exact tracksOther tracks rfl (setAtOther _ _ (Ne.symm own)) (by simpa [here] using own) (.inl rfl)
    · subst q next
      refine ⟨by simp [History.since,isPacket,isChecked],fun up => by simp at up,fun up _ => ?_,
        by simp [Justified],tracks.justified⟩
      exact (heardSkip (by simp) (by simp) _).mpr (tracks.last up (by simp [here]))
    · subst next
      exact tracksOther tracks (setAtOther _ _ (Ne.symm own)) rfl (by simp [here])
        (.inr ⟨.checked q,rfl,by simp,by simp,by simpa using own⟩)

/-- Between two reports of a receiver a packet of it was read, and none was read from the last
check of the receiver to the report. -/
theorem reportsJustified (conf : Conf) (acts : List Act) (s : State)
    (run : Runs.exec (step conf) initial acts = some s) (r : Bool) :
    (∀ newer between older, s.log = newer ++ .report r :: (between ++ .report r :: older) →
      .packet r ∈ between) ∧
    (∀ newer between older, s.log = newer ++ .report r :: (between ++ older) →
      .checked r ∉ between → .packet r ∉ between) := by
  have tracks : Tracks r s := Runs.invariant (fun _ _ _ => stepTracks) (initialTracks r) run
  refine ⟨fun newer between older same => ?_,fun newer between older same open_ => ?_⟩
  · have all := tracks.justified
    rw [same] at all
    have heard := ((History.everySplit all) rfl).1 (by simp)
    obtain absurd_event | ⟨x,mem,hit⟩ := History.sinceSplit (by simp [isReport]) heard
    · simp [isPacket] at absurd_event
    · rw [isPacket,decide_eq_true_eq] at hit
      exact hit ▸ mem
  · have all := tracks.justified
    rw [same] at all
    have quiet := ((History.everySplit all) rfl).2
    intro mem
    have none := History.sinceNone quiet (fun x inside => by
      simp only [isChecked,decide_eq_false_iff_not]
      rintro rfl
      exact open_ inside) _ mem
    simp [isPacket] at none

def twoSeconds : Conf := addConfig [] (Cstr.ascii "watchdog.receiver_timeout") (Cstr.ascii "2")

def round : List Act := [.second,.second,.check,.check,.check,.check,.check,.check]

theorem reportsJustifiedRound : ∃ s,
    Runs.exec (step twoSeconds) initial (round ++ .packet true :: (round ++ round)) = some s ∧
    s.log.count (.report true) = 2 ∧
    ∀ r, (∀ newer between older, s.log = newer ++ .report r :: (between ++ .report r :: older) →
      .packet r ∈ between) ∧
    (∀ newer between older, s.log = newer ++ .report r :: (between ++ older) →
      .checked r ∉ between → .packet r ∉ between) := by
  have seen : (Runs.exec (step twoSeconds) initial (round ++ .packet true :: (round ++ round))).map
      (fun s => s.log.count (.report true)) = some 2 := by decide +kernel
  obtain ⟨s,run,count⟩ := Option.map_eq_some_iff.mp seen
  exact ⟨s,run,count,reportsJustified twoSeconds _ s run⟩

def ahead (r : Bool) : Pc → Bool
  | .sleep => false
  | .test q => q = r || r
  | .copy q | .clear q => !q && r

def passes (r : Bool) (s : State) : Bool :=
  s.alive r && s.pc ≠ .copy r && s.pc ≠ .clear r

structure Owed (conf : Conf) (r : Bool) (s : State) : Prop where
  round : s.pc ≠ .sleep → s.relatime % receiverTimeout conf = 0
  copying : s.pc = .copy r → s.alive r = true
  known : s.pc ≠ .copy r → s.alive r = false ∨ s.pc = .clear r → s.last r = true

def Silent (r : Bool) (s : State) (a : Act) : Prop :=
  a ≠ .packet r ∧ (a = .check → s.pc = .test r → reports s r = false)

def secondsLeft (conf : Conf) (r : Bool) (s : State) : Nat :=
  (if ahead r s.pc then 0 else receiverTimeout conf - s.relatime % receiverTimeout conf) +
    if passes r s then receiverTimeout conf else 0

theorem secondsBounded (conf : Conf) (r : Bool) (s : State) :
    secondsLeft conf r s ≤ 2 * receiverTimeout conf := by
  unfold secondsLeft
  split <;> split <;> omega

variable {conf : Conf} {r : Bool} {s t : State}

theorem nextMod (a : Nat) {n : Nat} (pos : 0 < n) :
    (a + 1) % n = if a % n + 1 = n then 0 else a % n + 1 := by
  have below := Nat.mod_lt a pos
  rw [← Nat.mod_add_mod]
  split
  · rename_i full
    rw [full,Nat.mod_self]
  · exact Nat.mod_eq_of_lt (by omega)

theorem secondOwed (owed : Owed conf r s) (h : step conf s .second = some t) :
    Owed conf r t ∧ secondsLeft conf r t < secondsLeft conf r s := by
  have pos := receiverTimeoutPos conf
  obtain ⟨here,rfl⟩ := Runs.guarded h
  have known := owed.known (by simp [here])
  have below := Nat.mod_lt s.relatime pos
  have next := nextMod s.relatime pos
  split
  · rename_i round
    refine ⟨⟨fun _ => round,by simp,fun _ down => known (.inl (by simpa using down))⟩,?_⟩
    simp [secondsLeft,passes,here,ahead]
    omega
  · rename_i round
    rw [if_neg (fun full => round (by rw [next,if_pos full]))] at next
    refine ⟨⟨by simp,by simp,fun _ down => known (.inl (by simpa using down))⟩,?_⟩
    simp [secondsLeft,passes,here,ahead,next]
    omega

theorem packetOwed {q : Bool} (owed : Owed conf r s) (other : q ≠ r)
    (h : step conf s (.packet q) = some t) :
    Owed conf r t ∧ secondsLeft conf r t = secondsLeft conf r s := by
  cases Option.some.inj h
  have same : setAt s.alive q true r = s.alive r := setAtOther _ _ (Ne.symm other)
  refine ⟨⟨owed.round,?_,?_⟩,?_⟩
  · simp only [same]; exact owed.copying
  · simp only [same]; exact owed.known
  · simp [secondsLeft,passes,same]

theorem checkOwed (owed : Owed conf r s) (silent : s.pc = .test r → reports s r = false)
    (h : step conf s .check = some t) :
    Owed conf r t ∧ secondsLeft conf r t ≤ secondsLeft conf r s := by
  simp only [step] at h
  split at h <;> try contradiction
  all_goals
    rename_i q here
    cases Option.some.inj h
    have round := owed.round (by simp [here])
    by_cases own : q = r
  · subst q
    have up : s.alive r = true := by
      have known := owed.known (by simp [here])
      have quiet := silent here
      cases alive : s.alive r with
      | true => rfl
      | false => simp [reports,alive,known (.inl alive)] at quiet
    refine ⟨⟨fun _ => round,fun _ => up,fun at_ => absurd rfl at_⟩,?_⟩
    have ready : ahead r (.test r) = true := by simp [ahead]
    have done : ahead r (.copy r) = false := by cases r <;> rfl
    simp [secondsLeft,passes,here,up,round,ready,done]
  · refine ⟨⟨fun _ => round,fun at_ => absurd (Pc.copy.inj at_) own,fun _ down => ?_⟩,?_⟩
    · exact owed.known (by simp [here]) (down.imp_right (by simp))
    · have same : ahead r (.copy q) = ahead r (.test q) := by
        cases r <;> cases q <;> first | exact absurd rfl own | rfl
      simp [secondsLeft,passes,here,same,own]
  · subst q
    have up := owed.copying here
    refine ⟨⟨fun _ => round,by simp,fun _ _ => ?_⟩,?_⟩
    · rw [← up]; exact setAtSame _ _ _
    · have done : ahead r (.clear r) = ahead r (.copy r) := rfl
      simp [secondsLeft,passes,here,done]
  · refine ⟨⟨fun _ => round,by simp,fun _ down => ?_⟩,?_⟩
    · simp only [setAtOther _ _ (Ne.symm own)]
      exact owed.known (by simpa [here] using own)
        (down.imp_right (fun at_ => absurd (Pc.clear.inj at_) own))
    · have same : ahead r (.clear q) = ahead r (.copy q) := rfl
      simp [secondsLeft,passes,here,same,own]
  · subst q
    have last := owed.known (by simp [here]) (.inr here)
    refine ⟨⟨fun _ => round,?_,fun _ _ => last⟩,?_⟩
    · cases r <;> simp
    · cases r <;> simp [secondsLeft,passes,here,ahead]
  · refine ⟨⟨fun _ => round,?_,fun _ down => ?_⟩,?_⟩
    · cases q <;> cases r <;> first | exact absurd rfl own | simp
    · simp only [setAtOther _ _ (Ne.symm own)] at down ⊢
      refine owed.known (by simp [here]) (down.imp_right ?_)
      cases q <;> cases r <;> first | exact absurd rfl own | simp
    · simp only [secondsLeft,passes,setAtOther _ _ (Ne.symm own),here]
      cases q <;> cases r <;> first | exact absurd rfl own | simp [ahead]

theorem stepOwed {a : Act} (owed : Owed conf r s) (silent : Silent r s a) (h : step conf s a = some t) :
    Owed conf r t ∧ secondsLeft conf r t + (if a = .second then 1 else 0) ≤ secondsLeft conf r s := by
  cases a with
  | packet q =>
    obtain ⟨later,same⟩ := packetOwed owed (by simpa using silent.1) h
    exact ⟨later,by simp [same]⟩
  | second =>
    obtain ⟨later,less⟩ := secondOwed owed h
    exact ⟨later,by rw [if_pos rfl]; exact less⟩
  | check =>
    obtain ⟨later,less⟩ := checkOwed owed (silent.2 rfl) h
    exact ⟨later,by simpa using less⟩

theorem stepRound {a : Act} (round : s.pc ≠ .sleep → s.relatime % receiverTimeout conf = 0)
    (h : step conf s a = some t) : t.pc ≠ .sleep → t.relatime % receiverTimeout conf = 0 := by
  cases a with
  | packet q => cases Option.some.inj h; exact round
  | second =>
    obtain ⟨-,rfl⟩ := Runs.guarded h
    split <;> simp [*]
  | check =>
    simp only [step] at h
    split at h <;> try contradiction
    all_goals
      rename_i q here
      cases Option.some.inj h
      exact fun _ => round (by simp [here])

theorem stepLog {a : Act} (other : a ≠ .packet r) (h : step conf s a = some t) :
    ∃ new, t.log = new ++ s.log ∧ .packet r ∉ new ∧ (.report r ∉ new → Silent r s a) := by
  cases a with
  | packet q =>
    cases Option.some.inj h
    exact ⟨[.packet q],rfl,by simpa [eq_comm] using other,fun _ => ⟨other,by simp⟩⟩
  | second =>
    obtain ⟨-,rfl⟩ := Runs.guarded h
    exact ⟨[],rfl,by simp,fun _ => ⟨other,by simp⟩⟩
  | check =>
    simp only [step] at h
    split at h <;> try contradiction
    all_goals
      rename_i q here
      cases Option.some.inj h
    · cases dead : reports s q with
      | false =>
        refine ⟨[],rfl,by simp,fun _ => ⟨other,fun _ at_ => ?_⟩⟩
        rw [← Pc.test.inj (here.symm.trans at_)]
        exact dead
      | true =>
        refine ⟨[.report q],rfl,by simp,fun none => ⟨other,fun _ at_ => ?_⟩⟩
        have same := Pc.test.inj (here.symm.trans at_)
        simp [same] at none
    · exact ⟨[],rfl,by simp,fun _ => ⟨other,fun _ at_ => by simp [here] at at_⟩⟩
    · exact ⟨[.checked q],rfl,by simp,fun _ => ⟨other,fun _ at_ => by simp [here] at at_⟩⟩

theorem runLog {acts : List Act} (quiet : .packet r ∉ acts)
    (run : Runs.exec (step conf) s acts = some t) :
    ∃ new, t.log = new ++ s.log ∧ .packet r ∉ new ∧
      (.report r ∉ new → Runs.Meets (step conf) (Silent r) s acts) := by
  induction acts generalizing s with
  | nil =>
    cases Option.some.inj run
    exact ⟨[],rfl,by simp,fun _ => trivial⟩
  | cons a rest ih =>
    obtain ⟨m,moved,later⟩ := Runs.execCons run
    obtain ⟨first,log,packet,silent⟩ := stepLog (Ne.symm (List.ne_of_not_mem_cons quiet)) moved
    obtain ⟨second,logs,packets,meets⟩ := ih (List.not_mem_of_not_mem_cons quiet) later
    refine ⟨second ++ first,by rw [logs,log,List.append_assoc],by simp [packet,packets],fun none => ?_⟩
    simp only [List.mem_append,not_or] at none
    intro m' same
    cases Option.some.inj (moved.symm.trans same)
    exact ⟨silent none.2,meets none.1⟩

theorem reportedOnce {new log : List Event} (all : History.Every (Justified r) (new ++ log))
    (quiet : .packet r ∉ new) : new.count (.report r) ≤ 1 := by
  induction new with
  | nil => simp
  | cons e rest ih =>
    have others := ih all.2 (List.not_mem_of_not_mem_cons quiet)
    by_cases report : e = .report r
    · subst e
      have none : .report r ∉ rest := by
        intro mem
        obtain ⟨between,older,rfl⟩ := List.append_of_mem mem
        have heard : History.since (isPacket r) (isReport r) (between ++ .report r :: (older ++ log)) = true := by
          rw [← List.cons_append,← List.append_assoc]
          exact (all.1 rfl).1 (by simp)
        obtain absurd_event | ⟨x,inside,hit⟩ := History.sinceSplit (by simp [isReport]) heard
        · simp [isPacket] at absurd_event
        · rw [isPacket,decide_eq_true_eq] at hit
          subst x
          exact quiet (by simp [inside])
      rw [List.count_cons_self,List.count_eq_zero.mpr none]
    · rw [List.count_cons_of_ne report]
      exact others

/-- A receiver whose packet does not come between the copy and the clearing of a check, and that
then falls silent, is reported once, within two timeouts. -/
theorem silentReported (conf : Conf) (acts : List Act) (s : State)
    (run : Runs.exec (step conf) initial acts = some s) (r : Bool) (noticed : s.pc ≠ .clear r)
    (later : List Act) (quiet : .packet r ∉ later) (t : State)
    (runs : Runs.exec (step conf) s (.packet r :: later) = some t)
    (long : 2 * receiverTimeout conf < later.count .second) :
    t.log.count (.report r) = s.log.count (.report r) + 1 := by
  obtain ⟨m,moved,rest⟩ := Runs.execCons runs
  obtain ⟨new,log,packets,meets⟩ := runLog quiet rest
  have round := Runs.invariant (fun _ _ _ => stepRound) (s := initial) (by simp [initial]) run
  cases Option.some.inj moved
  have owed : Owed conf r {s with alive := setAt s.alive r true, log := .packet r :: s.log} :=
    ⟨round,by simp,fun _ down => by simp [noticed] at down⟩
  have reported : .report r ∈ new := by
    refine Classical.byContradiction (fun none => ?_)
    have counted := Runs.countedDown (secondsLeft conf r) (fun a => decide (a = .second))
      (fun _ _ _ owed silent h => (stepOwed owed silent h).1)
      (fun s a t owed silent mine h => by
        have := (stepOwed owed silent h).2
        rw [if_pos (of_decide_eq_true mine)] at this
        exact this)
      (fun s a t owed silent _ h => Nat.le_trans (Nat.le_add_right _ _) (stepOwed owed silent h).2)
      owed (meets none) rest
    have most := secondsBounded conf r {s with alive := setAt s.alive r true, log := .packet r :: s.log}
    have same : later.count .second = later.countP (fun a => decide (a = .second)) :=
      List.countP_congr (fun a _ => by simp)
    omega
  have tracks : Tracks r t := by
    have first : Tracks r s := Runs.invariant (fun _ _ _ => stepTracks) (initialTracks r) run
    exact Runs.invariant (fun _ _ _ => stepTracks) first runs
  have justified := tracks.justified
  rw [log] at justified
  have once := reportedOnce justified packets
  have some_report := List.count_pos_iff.mpr reported
  rw [log,List.count_append,List.count_cons_of_ne (by simp)]
  omega

theorem silentReportedTwoSeconds : ∃ s t, Runs.exec (step twoSeconds) initial round = some s ∧
    Runs.exec (step twoSeconds) s (.packet true :: (round ++ round ++ [.second])) = some t ∧
    t.log.count (.report true) = s.log.count (.report true) + 1 := by
  have first : (Runs.exec (step twoSeconds) initial round).isSome := by decide +kernel
  have both : (Runs.exec (step twoSeconds) initial (round ++ .packet true ::
      (round ++ round ++ [.second]))).isSome := by decide +kernel
  have at_ : (Runs.exec (step twoSeconds) initial round).map State.pc = some .sleep := by decide +kernel
  obtain ⟨s,run⟩ := Option.isSome_iff_exists.mp first
  rw [Runs.execAppend,run,Option.bind_some] at both
  obtain ⟨t,runs⟩ := Option.isSome_iff_exists.mp both
  rw [run,Option.map_some,Option.some.injEq] at at_
  exact ⟨s,t,run,runs,silentReported twoSeconds round s run true (by simp [at_]) _ (by decide) t runs
    (by decide +kernel)⟩

end RfidStation.Watchdog
