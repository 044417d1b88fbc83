import RfidStation.Lib.Runs
import RfidStation.Merger

/-! handle_student on the server thread and check_timers on the timeout thread, interleaved.
One dictionary call is one step. check_timers holds lock_timers from `lock` to `unlock`;
handle_student takes it for set_timeout only. -/
namespace RfidStation.TimerRace
open Student Merger

structure Reading where
  number : Nat
  id : Key
  action : Bool
  deriving DecidableEq, Repr

-- A value of `students`. Beside the packed `int` it lists, for the proofs only, the
-- readings that were folded into it.
structure Cell where
  value : Int
  readings : List Reading
  deriving DecidableEq, Repr

def absent : Cell := ⟨0,[]⟩

def Cell.fold (c : Cell) (r : Reading) : Cell :=
  ⟨toInt (update (ofInt c.value) r.action),c.readings ++ [r]⟩

inductive Server where
  | idle
  | read (id : Key) (action : Bool) (state : Cell)
  | stored (id : Key)
  deriving DecidableEq, Repr

-- Where check_timers is. `n` is the position of `timer` in the list; `expired` holds the
-- duplicated key, the later ones also the state that was read for it.
inductive Checker where
  | idle
  | loop (curr : Clock) (n : Nat)
  | expired (curr : Clock) (n : Nat) (id : Key)
  | read (curr : Clock) (n : Nat) (id : Key) (state : Cell)
  | deleted (curr : Clock) (n : Nat) (id : Key) (state : Cell)
  | unlinked (curr : Clock) (n : Nat) (id : Key) (state : Cell)
  deriving DecidableEq, Repr

structure State where
  students : Dict Cell
  timers : Dict Int
  server : Server
  checker : Checker
  handled : List Reading
  evaluated : List (Key × Cell)
  notices : List Notice
  deriving DecidableEq, Repr

def initial : State := ⟨Dict.newDict,Dict.newDict,.idle,.idle,[],[],[]⟩

inductive Act where
  | get (id : Key) (action : Bool)
  | set
  | setTimeout (now : Clock)
  | lock (curr : Clock)
  | test
  | getStudent
  | delStudent
  | unlink
  | decide
  | unlock
  deriving DecidableEq, Repr

def view (s : State) (id : Key) : Cell := Dict.get absent s.students id

def step (timeout : Int) (s : State) : Act → Option State
  | .get id action => match s.server with
    | .idle => some {s with server := .read id action (view s id)}
    | _ => none
  | .set => match s.server with
    | .read id action state =>
      let r : Reading := ⟨s.handled.length,id,action⟩
      some {s with
        students := Dict.set s.students id (state.fold r)
        server := .stored id
        handled := s.handled ++ [r]}
    | _ => none
  | .setTimeout now => match s.server, s.checker with
    | .stored id, .idle => some {s with timers := Dict.set s.timers id now.val, server := .idle}
    | _, _ => none
  | .lock curr => match s.checker with
    | .idle => some {s with checker := .loop curr 0}
    | _ => none
  | .test => match s.checker with
    | .loop curr n => match s.timers[n]? with
      | some (key,value) => some {s with
          checker := if curr.val - value ≥ timeout then .expired curr n key
            else .loop curr (n + 1)}
      | none => none
    | _ => none
  | .getStudent => match s.checker with
    | .expired curr n id => some {s with checker := .read curr n id (view s id)}
    | _ => none
  | .delStudent => match s.checker with
    | .read curr n id state => some {s with
        students := (Dict.del s.students id).1
        checker := .deleted curr n id state}
    | _ => none
  | .unlink => match s.checker with
    | .deleted curr n id state => some {s with
        timers := Dict.remove s.timers n
        checker := .unlinked curr n id state}
    | _ => none
  | .decide => match s.checker with
    | .unlinked curr n id state => some {s with
        evaluated := s.evaluated ++ [(id,state)]
        notices := s.notices ++ (verdict (ofInt state.value)).toList.map (fun a => (id,a))
        checker := .loop curr n}
    | _ => none
  | .unlock => match s.checker with
    | .loop _ n => if s.timers[n]? = none then some {s with checker := .idle} else none
    | _ => none

-- The state that check_timers has taken out of `students` and not decided on yet.
def inHand : Checker → List (Key × Cell)
  | .deleted _ _ id state => [(id,state)]
  | .unlinked _ _ id state => [(id,state)]
  | _ => []

def taken (s : State) : List (Key × Cell) := inHand s.checker ++ s.evaluated
def sessions (s : State) : List (Key × Cell) := s.students ++ taken s

def readings (items : List (Key × Cell)) : List Reading := Dict.contents Cell.readings items

def Faithful (item : Key × Cell) : Prop :=
  item.2.value = toInt (folded (item.2.readings.map Reading.action)) ∧
  ∀ r ∈ item.2.readings, r.id = item.1
instance (item) : Decidable (Faithful item) := by unfold Faithful; infer_instance

structure Conserved (s : State) : Prop where
  once : ∀ r ∈ s.handled, (readings (sessions s)).count r = 1
  faithful : ∀ item ∈ sessions s, Faithful item

/-- The step finds its card's entry as its own thread last read it: no deletion between the
server's `get` and `set`, and no storing between check_timers' `get` and `del`. -/
def Undisturbed (s : State) : Act → Prop
  | .set => ∀ id action state, s.server = .read id action state → view s id = state
  | .delStudent => ∀ curr n id state, s.checker = .read curr n id state → view s id = state
  | _ => True

instance (s : State) (a : Act) : Decidable (Undisturbed s a) :=
  match a with
  | .set => match h : s.server with
    | .read id _ state => decidable_of_iff (view s id = state)
        ⟨by intro now other action read held; rw [h] at held; cases held; exact now,
          fun all => all _ _ _ h⟩
    | .idle | .stored _ => isTrue (by simp [Undisturbed,h])
  | .delStudent => match h : s.checker with
    | .read _ _ id state => decidable_of_iff (view s id = state)
        ⟨by intro now curr n other read held; rw [h] at held; cases held; exact now,
          fun all => all _ _ _ _ h⟩
    | .idle | .loop _ _ | .expired _ _ _ | .deleted _ _ _ _ | .unlinked _ _ _ _ =>
        isTrue (by simp [Undisturbed,h])
  | .get _ _ | .setTimeout _ | .lock _ | .test | .getStudent | .unlink | .decide | .unlock =>
      isTrue trivial

theorem stepGet {timeout s id action t} (h : step timeout s (.get id action) = some t) :
    s.server = .idle ∧ t = {s with server := .read id action (view s id)} := by
  simp only [step] at h
  split at h <;> try contradiction
  exact ⟨‹_›,(Option.some.inj h).symm⟩

theorem stepSet {timeout s t} (h : step timeout s .set = some t) :
    ∃ id action state, s.server = .read id action state ∧ t = {s with
      students := Dict.set s.students id (state.fold ⟨s.handled.length,id,action⟩)
      server := .stored id
      handled := s.handled ++ [⟨s.handled.length,id,action⟩]} := by
  simp only [step] at h
  split at h <;> try contradiction
  exact ⟨_,_,_,‹_›,(Option.some.inj h).symm⟩

theorem stepGetStudent {timeout s t} (h : step timeout s .getStudent = some t) :
    ∃ curr n id, s.checker = .expired curr n id ∧
      t = {s with checker := .read curr n id (view s id)} := by
  simp only [step] at h
  split at h <;> try contradiction
  exact ⟨_,_,_,‹_›,(Option.some.inj h).symm⟩

theorem stepDelStudent {timeout s t} (h : step timeout s .delStudent = some t) :
    ∃ curr n id state, s.checker = .read curr n id state ∧ t = {s with
      students := (Dict.del s.students id).1
      checker := .deleted curr n id state} := by
  simp only [step] at h
  split at h <;> try contradiction
  exact ⟨_,_,_,_,‹_›,(Option.some.inj h).symm⟩

theorem stepDecide {timeout s t} (h : step timeout s .decide = some t) :
    ∃ curr n id state, s.checker = .unlinked curr n id state ∧ t = {s with
      evaluated := s.evaluated ++ [(id,state)]
      notices := s.notices ++ (verdict (ofInt state.value)).toList.map (fun a => (id,a))
      checker := .loop curr n} := by
  simp only [step] at h
  split at h <;> try contradiction
  exact ⟨_,_,_,_,‹_›,(Option.some.inj h).symm⟩

theorem stepSetTimeout {timeout s now t} (h : step timeout s (.setTimeout now) = some t) :
    ∃ id, s.server = .stored id ∧ s.checker = .idle ∧
      t = {s with timers := Dict.set s.timers id now.val, server := .idle} := by
  simp only [step] at h
  split at h <;> try contradiction
  exact ⟨_,‹_›,‹_›,(Option.some.inj h).symm⟩

theorem stepLock {timeout s curr t} (h : step timeout s (.lock curr) = some t) :
    s.checker = .idle ∧ t = {s with checker := .loop curr 0} := by
  simp only [step] at h
  split at h <;> try contradiction
  exact ⟨‹_›,(Option.some.inj h).symm⟩

theorem stepTest {timeout s t} (h : step timeout s .test = some t) :
    ∃ curr n key value, s.checker = .loop curr n ∧ s.timers[n]? = some (key,value) ∧
      t = {s with checker :=
        if curr.val - value ≥ timeout then .expired curr n key else .loop curr (n + 1)} := by
  simp only [step] at h
  split at h <;> try contradiction
  split at h <;> try contradiction
  exact ⟨_,_,_,_,‹_›,‹_›,(Option.some.inj h).symm⟩

theorem stepUnlink {timeout s t} (h : step timeout s .unlink = some t) :
    ∃ curr n id state, s.checker = .deleted curr n id state ∧ t = {s with
      timers := Dict.remove s.timers n
      checker := .unlinked curr n id state} := by
  simp only [step] at h
  split at h <;> try contradiction
  exact ⟨_,_,_,_,‹_›,(Option.some.inj h).symm⟩

theorem stepUnlock {timeout s t} (h : step timeout s .unlock = some t) :
    ∃ curr n, s.checker = .loop curr n ∧ s.timers[n]? = none ∧ t = {s with checker := .idle} := by
  simp only [step] at h
  split at h <;> try contradiction
  obtain ⟨ended,rfl⟩ := Runs.guarded h
  exact ⟨_,_,‹_›,ended,rfl⟩

theorem stepFrame {timeout s a t} (h : step timeout s a = some t)
    (other : (∃ now, a = .setTimeout now) ∨ (∃ curr, a = .lock curr) ∨ a = .test ∨
      a = .unlink ∨ a = .unlock) :
    t.students = s.students ∧ t.handled = s.handled ∧ taken t = taken s ∧
    (∀ id action state, t.server = .read id action state → s.server = t.server) ∧
    (∀ curr n id state, t.checker ≠ .read curr n id state) := by
  rcases other with ⟨now,rfl⟩ | ⟨curr,rfl⟩ | rfl | rfl | rfl
  · obtain ⟨id,server,checker,rfl⟩ := stepSetTimeout h
    exact ⟨rfl,rfl,rfl,by simp,by simp [checker]⟩
  · obtain ⟨checker,rfl⟩ := stepLock h
    exact ⟨rfl,rfl,by simp [taken,inHand,checker],by simp,by simp⟩
  · obtain ⟨curr,n,key,value,checker,-,rfl⟩ := stepTest h
    refine ⟨rfl,rfl,?_,by simp,?_⟩
    · simp only [taken,checker]; split <;> rfl
    · intro curr n id state; simp only; split <;> simp
  · obtain ⟨curr,n,id,state,checker,rfl⟩ := stepUnlink h
    exact ⟨rfl,rfl,by simp [taken,inHand,checker],by simp,by simp⟩
  · obtain ⟨curr,n,checker,-,rfl⟩ := stepUnlock h
    exact ⟨rfl,rfl,by simp [taken,inHand,checker],by simp,by simp⟩

def verdicts (item : Key × Cell) : List Notice :=
  (verdict (ofInt item.2.value)).toList.map (fun action => (item.1,action))

def sessionVerdicts (item : Key × Cell) : List Notice :=
  (sessionVerdict (item.2.readings.map Reading.action)).toList.map (fun action => (item.1,action))

theorem faithfulVerdicts {item : Key × Cell} (faithful : Faithful item) :
    verdicts item = sessionVerdicts item := by
  rw [verdicts,sessionVerdicts,faithful.1,ofIntToInt,verdictFolded]

theorem undecided {timeout s a t} (other : a ≠ .decide) (h : step timeout s a = some t) :
    t.evaluated = s.evaluated ∧ t.notices = s.notices := by
  cases a with
  | decide => exact absurd rfl other
  | get id action => obtain ⟨-,rfl⟩ := stepGet h; exact ⟨rfl,rfl⟩
  | set => obtain ⟨id,action,state,-,rfl⟩ := stepSet h; exact ⟨rfl,rfl⟩
  | setTimeout now => obtain ⟨id,-,-,rfl⟩ := stepSetTimeout h; exact ⟨rfl,rfl⟩
  | lock curr => obtain ⟨-,rfl⟩ := stepLock h; exact ⟨rfl,rfl⟩
  | test => obtain ⟨curr,n,key,value,-,-,rfl⟩ := stepTest h; exact ⟨rfl,rfl⟩
  | getStudent => obtain ⟨curr,n,id,-,rfl⟩ := stepGetStudent h; exact ⟨rfl,rfl⟩
  | delStudent => obtain ⟨curr,n,id,state,-,rfl⟩ := stepDelStudent h; exact ⟨rfl,rfl⟩
  | unlink => obtain ⟨curr,n,id,state,-,rfl⟩ := stepUnlink h; exact ⟨rfl,rfl⟩
  | unlock => obtain ⟨curr,n,-,-,rfl⟩ := stepUnlock h; exact ⟨rfl,rfl⟩

def Decided (s : State) : Prop := s.notices = s.evaluated.flatMap verdicts

theorem stepDecided {timeout s a t} (decided : Decided s) (h : step timeout s a = some t) : Decided t := by
  by_cases decides : a = .decide
  · subst decides
    obtain ⟨curr,n,id,state,-,rfl⟩ := stepDecide h
    rw [Decided,List.flatMap_append,← decided,List.flatMap_singleton]
    rfl
  · obtain ⟨evaluated,notices⟩ := undecided decides h
    rw [Decided,evaluated,notices]
    exact decided

theorem runDecided {timeout acts s} (run : Runs.exec (step timeout) initial acts = some s) : Decided s :=
  Runs.invariant (I := Decided) (fun _ _ _ => stepDecided) (show Decided initial from rfl) run

/-! The invariant. A thread that has read a card's entry either still has the current one or
knows what happened: the server's copy may have been taken meanwhile, the checker's copy may
have been outdated by a new reading. -/

structure Inv (s : State) : Prop where
  perm : (readings (sessions s)).Perm s.handled
  numbers : s.handled.map Reading.number = List.range s.handled.length
  distinct : Dict.Distinct s.students
  faithful : ∀ item ∈ sessions s, Faithful item
  server : ∀ id action state, s.server = .read id action state → Faithful (id,state) ∧
    (view s id = state ∨ view s id = absent ∧ ∀ r ∈ state.readings, r ∈ readings (taken s))
  checker : ∀ curr n id state, s.checker = .read curr n id state → Faithful (id,state) ∧
    (∀ r ∈ state.readings, r ∈ s.handled) ∧
    (view s id = state ∨ ∃ r ∈ (view s id).readings, r ∉ state.readings)

theorem readingsAppend (xs ys : List (Key × Cell)) :
    readings (xs ++ ys) = readings xs ++ readings ys := List.flatMap_append ..

theorem readingsPerm {xs ys : List (Key × Cell)} (h : xs.Perm ys) :
    (readings xs).Perm (readings ys) := h.flatMap_right _

theorem heldReadings (d : Dict Cell) (id : Key) :
    ((Dict.lookup d id).map Cell.readings).getD [] = (Dict.get absent d id).readings := by
  rw [Dict.get]
  cases Dict.lookup d id <;> rfl

theorem absentFaithful (id : Key) : Faithful (id,absent) := ⟨rfl,by simp [absent]⟩

theorem absentOfEmpty {id c} (h : Faithful (id,c)) (empty : c.readings = []) : c = absent := by
  obtain ⟨value,rs⟩ := c
  obtain rfl : rs = [] := empty
  have same : value = 0 := h.1
  rw [same]; rfl

theorem viewFaithful {s : State} (all : ∀ item ∈ s.students, Faithful item) (id : Key) :
    Faithful (id,view s id) := by
  cases found : Dict.lookup s.students id with
  | none => simpa [view,Dict.get,found] using absentFaithful id
  | some c => simpa [view,Dict.get,found] using all _ (Dict.lookupSomeMem found)

theorem viewReadings {s : State} {id r} (mem : r ∈ (view s id).readings) :
    r ∈ readings s.students := by
  cases found : Dict.lookup s.students id with
  | none => simp [view,Dict.get,found,absent] at mem
  | some c => exact Dict.memContents _ found (by simpa [view,Dict.get,found] using mem)

theorem foldFaithful {id c} (h : Faithful (id,c)) (n : Nat) (action : Bool) :
    Faithful (id,c.fold ⟨n,id,action⟩) := by
  refine ⟨?_,fun r mem => ?_⟩
  · have value : c.value = toInt (folded (c.readings.map Reading.action)) := h.1
    simp only [Cell.fold,value,ofIntToInt,List.map_append,List.map_cons,List.map_nil,foldedSnoc]
  · rcases List.mem_append.mp mem with old | new
    · exact h.2 r old
    · obtain rfl := List.mem_singleton.mp new; rfl

theorem unhandled {s : State} (inv : Inv s) (id : Key) (action : Bool) :
    (⟨s.handled.length,id,action⟩ : Reading) ∉ s.handled := by
  intro mem
  have number := List.mem_map_of_mem (f := Reading.number) mem
  rw [inv.numbers] at number
  exact absurd (List.mem_range.mp number) (Nat.lt_irrefl _)

theorem handledNodup {s : State} (inv : Inv s) : s.handled.Nodup :=
  List.Nodup.of_map Reading.number (inv.numbers ▸ List.nodup_range)

theorem takenFaithful {s : State} (inv : Inv s) : ∀ item ∈ taken s, Faithful item :=
  fun item mem => inv.faithful item (List.mem_append_right _ mem)

theorem studentsFaithful {s : State} (inv : Inv s) : ∀ item ∈ s.students, Faithful item :=
  fun item mem => inv.faithful item (List.mem_append_left _ mem)

theorem handledOfStudents {s : State} (inv : Inv s) {r} (mem : r ∈ readings s.students) :
    r ∈ s.handled :=
  inv.perm.subset (by rw [sessions,readingsAppend]; exact List.mem_append_left _ mem)

theorem invMove {s t : State} (inv : Inv s) (students : t.students = s.students)
    (handled : t.handled = s.handled) (moved : (taken t).Perm (taken s))
    (server : ∀ id action state, t.server = .read id action state →
      s.server = .read id action state ∨ state = view s id)
    (checker : ∀ curr n id state, t.checker = .read curr n id state →
      s.checker = .read curr n id state ∨ state = view s id) : Inv t := by
  have items : (sessions t).Perm (sessions s) := by
    rw [sessions,sessions,students]; exact moved.append_left _
  have views (id : Key) : view t id = view s id := by rw [view,view,students]
  refine ⟨?_,?_,?_,?_,?_,?_⟩
  · rw [handled]; exact (readingsPerm items).trans inv.perm
  · rw [handled]; exact inv.numbers
  · rw [students]; exact inv.distinct
  · exact fun item mem => inv.faithful item (items.subset mem)
  · intro id action state here
    rw [views]
    rcases server id action state here with before | rfl
    · obtain ⟨faithful,current | ⟨gone,all⟩⟩ := inv.server id action state before
      · exact ⟨faithful,.inl current⟩
      · exact ⟨faithful,.inr ⟨gone,fun r mem => (readingsPerm moved).symm.subset (all r mem)⟩⟩
    · exact ⟨viewFaithful (studentsFaithful inv) id,.inl rfl⟩
  · intro curr n id state here
    rw [views,handled]
    rcases checker curr n id state here with before | rfl
    · exact inv.checker curr n id state before
    · exact ⟨viewFaithful (studentsFaithful inv) id,
        fun r mem => handledOfStudents inv (viewReadings mem),.inl rfl⟩

theorem setReadings (d : Dict Cell) (id : Key) (r : Reading) {state : Cell}
    (current : Dict.get absent d id = state) :
    (readings (Dict.set d id (state.fold r))).Perm (readings d ++ [r]) := by
  have exchange := Dict.setPerm Cell.readings d id (state.fold r)
  rw [heldReadings,current] at exchange
  have grown : (state.fold r).readings = state.readings ++ [r] := rfl
  rw [grown] at exchange
  refine (List.perm_append_right_iff state.readings).mp (exchange.trans ?_)
  rw [List.append_assoc]
  exact List.perm_append_comm.append_left _

theorem delReadings (d : Dict Cell) (id : Key) {state : Cell}
    (current : Dict.get absent d id = state) :
    (readings (Dict.del d id).1 ++ state.readings).Perm (readings d) := by
  have exchange := Dict.delPerm Cell.readings d id
  rwa [heldReadings,current] at exchange

theorem keepsSet {timeout s t} (inv : Inv s) (undisturbed : Undisturbed s .set)
    (h : step timeout s .set = some t) : Inv t := by
  obtain ⟨id,action,state,here,rfl⟩ := stepSet h
  have current := undisturbed id action state here
  have faithful := (inv.server id action state here).1
  have fresh := unhandled inv id action
  refine ⟨?_,?_,?_,?_,by simp,?_⟩
  · -- the new reading goes into the live entry, everything else stays where it was
    have live := setReadings s.students id ⟨s.handled.length,id,action⟩ current
    have before := inv.perm
    simp only [sessions,readingsAppend] at before ⊢
    refine (live.append_right _).trans ?_
    rw [List.append_assoc]
    refine (List.perm_append_comm.append_left _).trans ?_
    rw [← List.append_assoc]
    exact before.append_right _
  · simp only [List.map_append,List.map_cons,List.map_nil,inv.numbers,List.length_append,
      List.length_singleton,List.range_succ]
  · exact Dict.setDistinct inv.distinct _ _
  · intro item mem
    rcases List.mem_append.mp mem with live | old
    · rcases Dict.setMem live with old | rfl
      · exact studentsFaithful inv item old
      · exact foldFaithful faithful _ _
    · exact takenFaithful inv item old
  · intro curr n other held reading
    obtain ⟨held_faithful,known,views⟩ := inv.checker curr n other held reading
    refine ⟨held_faithful,fun r mem => List.mem_append_left _ (known r mem),?_⟩
    by_cases same : id = other
    · subst other
      refine .inr ⟨⟨s.handled.length,id,action⟩,?_,fun mem => fresh (known _ mem)⟩
      simp [view,Dict.get,Dict.setLookup,Cell.fold]
    · simpa [view,Dict.get,Dict.setLookup,same] using views

theorem keepsDelStudent {timeout s t} (inv : Inv s) (undisturbed : Undisturbed s .delStudent)
    (h : step timeout s .delStudent = some t) : Inv t := by
  obtain ⟨curr,n,id,state,here,rfl⟩ := stepDelStudent h
  have current := undisturbed curr n id state here
  have faithful := (inv.checker curr n id state here).1
  have takenBefore : taken s = s.evaluated := by simp [taken,inHand,here]
  refine ⟨?_,inv.numbers,Dict.delDistinct inv.distinct _,?_,?_,by simp⟩
  · -- the deleted entry is now in the checker's hand
    have live := delReadings s.students id current
    have before := inv.perm
    simp only [sessions,readingsAppend,takenBefore] at before
    simp only [sessions,taken,inHand,readingsAppend,← List.append_assoc]
    refine List.Perm.trans (List.Perm.append_right _ ?_) before
    simpa [readings,Dict.contents] using live
  · intro item mem
    rcases List.mem_append.mp mem with live | old
    · exact studentsFaithful inv item ((Dict.delSublist _ _).subset live)
    · rcases List.mem_append.mp old with new | old
      · obtain rfl := List.mem_singleton.mp new; exact faithful
      · exact takenFaithful inv item (by rw [takenBefore]; exact old)
  · intro other action held reading
    obtain ⟨held_faithful,views⟩ := inv.server other action held reading
    refine ⟨held_faithful,?_⟩
    have kept : ∀ r ∈ readings (taken s), r ∈ readings
        (taken {s with students := (Dict.del s.students id).1,
                       checker := .deleted curr n id state}) := by
      intro r mem
      simp only [taken,inHand,readingsAppend]
      exact List.mem_append_right _ (by rwa [takenBefore] at mem)
    by_cases same : id = other
    · subst other
      refine .inr ⟨by simp [view,Dict.get,Dict.delLookup inv.distinct],fun r mem => ?_⟩
      rcases views with now | ⟨_,gone⟩
      · have own : state = held := current.symm.trans now
        subst own
        simp only [taken,inHand,readingsAppend]
        exact List.mem_append_left _ (by simpa [readings,Dict.contents] using mem)
      · exact kept r (gone r mem)
    · rcases views with now | ⟨none,gone⟩
      · exact .inl (by simpa [view,Dict.get,Dict.delLookup inv.distinct,same] using now)
      · exact .inr ⟨by simpa [view,Dict.get,Dict.delLookup inv.distinct,same] using none,
          fun r mem => kept r (gone r mem)⟩

theorem keeps (timeout : Int) (s : State) (a : Act) (t : State) (inv : Inv s)
    (undisturbed : Undisturbed s a) (h : step timeout s a = some t) : Inv t := by
  have framed (other : (∃ now, a = .setTimeout now) ∨ (∃ curr, a = .lock curr) ∨ a = .test ∨
      a = .unlink ∨ a = .unlock) : Inv t := by
    obtain ⟨students,handled,moved,server,checker⟩ := stepFrame h other
    exact invMove inv students handled (List.Perm.of_eq moved)
      (fun id action state here => .inl ((server id action state here).trans here))
      (fun curr n id state here => absurd here (checker curr n id state))
  cases a with
  | get id action =>
    obtain ⟨_,rfl⟩ := stepGet h
    refine invMove inv rfl rfl (List.Perm.refl _) ?_ (fun _ _ _ _ here => .inl here)
    rintro other role state here
    cases here
    exact .inr rfl
  | set => exact keepsSet inv undisturbed h
  | setTimeout now => exact framed (by simp)
  | lock curr => exact framed (by simp)
  | test => exact framed (by simp)
  | getStudent =>
    obtain ⟨curr,n,id,here,rfl⟩ := stepGetStudent h
    refine invMove inv rfl rfl (by simp [taken,inHand,here]) (fun _ _ _ here => .inl here) ?_
    rintro curr' n' other state read
    cases read
    exact .inr rfl
  | delStudent => exact keepsDelStudent inv undisturbed h
  | unlink => exact framed (by simp)
  | decide =>
    obtain ⟨curr,n,id,state,here,rfl⟩ := stepDecide h
    refine invMove inv rfl rfl ?_ (fun _ _ _ here => .inl here) (by simp)
    simp only [taken,inHand,here,List.nil_append]
    exact List.perm_append_comm
  | unlock => exact framed (by simp)

theorem conservedOfInv (s : State) (inv : Inv s) : Conserved s :=
  ⟨fun r mem => by
    rw [inv.perm.count_eq]
    exact List.count_eq_one_of_mem (handledNodup inv) mem,inv.faithful⟩

theorem spoilsSet {timeout s t} (inv : Inv s) (disturbed : ¬ Undisturbed s .set)
    (h : step timeout s .set = some t) : ¬ Conserved t := by
  obtain ⟨id,action,state,here,rfl⟩ := stepSet h
  have stale : view s id ≠ state := by
    intro current
    refine disturbed (fun other role held reading => ?_)
    cases here.symm.trans reading
    exact current
  obtain ⟨faithful,views⟩ := inv.server id action state here
  obtain ⟨gone,all⟩ := views.resolve_left stale
  have nonempty : state.readings ≠ [] :=
    fun empty => stale (gone.trans (absentOfEmpty faithful empty).symm)
  obtain ⟨r,mem⟩ := List.exists_mem_of_ne_nil _ nonempty
  have twice := all r mem
  have live : r ∈ readings (Dict.set s.students id (state.fold ⟨s.handled.length,id,action⟩)) :=
    Dict.memContents _ ((Dict.setLookup ..).trans (if_pos rfl)) (List.mem_append_left _ mem)
  intro conserved
  have known : r ∈ s.handled := inv.perm.subset (by
    rw [sessions,readingsAppend]; exact List.mem_append_right _ twice)
  have once := conserved.once r (List.mem_append_left _ known)
  have first := List.count_pos_iff.mpr live
  have second := List.count_pos_iff.mpr twice
  simp only [sessions,readingsAppend,List.count_append] at once
  have same : taken {s with
      students := Dict.set s.students id (state.fold ⟨s.handled.length,id,action⟩)
      server := .stored id
      handled := s.handled ++ [⟨s.handled.length,id,action⟩]} = taken s := rfl
  rw [same] at once
  omega

theorem spoilsDelStudent {timeout s t} (inv : Inv s) (disturbed : ¬ Undisturbed s .delStudent)
    (h : step timeout s .delStudent = some t) : ¬ Conserved t := by
  obtain ⟨curr,n,id,state,here,rfl⟩ := stepDelStudent h
  have stale : view s id ≠ state := by
    intro current
    refine disturbed (fun curr' n' other held reading => ?_)
    cases here.symm.trans reading
    exact current
  obtain ⟨r,mem,fresh⟩ := (inv.checker curr n id state here).2.2.resolve_left stale
  have known := handledOfStudents inv (viewReadings mem)
  have total : (readings (sessions s)).count r = 1 := (conservedOfInv s inv).once r known
  have removed := (delReadings s.students id (show _ = view s id from rfl)).count_eq r
  have first := List.count_pos_iff.mpr mem
  have none := List.count_eq_zero.mpr fresh
  intro conserved
  have once := conserved.once r known
  simp only [sessions,taken,inHand,here,readingsAppend,List.count_append,List.nil_append]
    at total once
  have hand : readings [(id,state)] = state.readings := by simp [readings,Dict.contents]
  rw [hand] at once
  rw [List.count_append] at removed
  omega

theorem initialInv : Inv initial := by
  refine ⟨List.Perm.refl _,rfl,List.nodup_nil,?_,?_,?_⟩
  · intro item mem; exact absurd mem (by simp [sessions,taken,inHand,initial,Dict.newDict])
  · intro id action state here; exact absurd here (by simp [initial])
  · intro curr n id state here; exact absurd here (by simp [initial])

theorem conservedIffUndisturbed (timeout : Int) (acts : List Act) :
    Runs.Always (step timeout) Conserved initial acts ↔
      Runs.Meets (step timeout) Undisturbed initial acts := by
  refine Runs.alwaysIffMeets conservedOfInv (keeps timeout) ?_ initialInv acts
  intro s a t inv disturbed h
  cases a with
  | set => exact spoilsSet inv disturbed h
  | delStudent => exact spoilsDelStudent inv disturbed h
  | _ => exact absurd trivial disturbed

-- A card is read again just as its timer expires: the server has fetched the old state
-- before check_timers evaluates and deletes it, and stores it back afterwards.
def rereadAtExpiry : List Act :=
  [.get [48] true,.set,.setTimeout ⟨0,by decide⟩,
    .lock ⟨60,by decide⟩,.test,.get [48] false,
    .getStudent,.delStudent,.unlink,.decide,.unlock,.set]

theorem rereadCountedTwice : ¬ Runs.Always (step 60) Conserved initial rereadAtExpiry := by
  let last : State := ⟨[([48],⟨529,[⟨0,[48],true⟩,⟨1,[48],false⟩]⟩)],[],.stored [48],.idle,
    [⟨0,[48],true⟩,⟨1,[48],false⟩],[([48],⟨272,[⟨0,[48],true⟩]⟩)],[]⟩
  have run : Runs.exec (step 60) initial rereadAtExpiry = some last := by decide
  refine Runs.notAlways run (fun conserved => ?_)
  exact absurd (conserved.once ⟨0,[48],true⟩ (by decide)) (by decide)

end RfidStation.TimerRace
