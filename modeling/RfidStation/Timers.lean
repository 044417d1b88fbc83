import RfidStation.TimerRace

/-! Every student has a timer (merger/timeout.c): the invariant between the two dictionaries
while handle_student and check_timers interleave, and what check_timers does with a student
that is not read any more. -/
namespace RfidStation.Timers
open Student TimerRace
open Merger (Clock)

-- The entry that check_timers works on, as long as it is still in `timers`.
def entry : Checker → Option (Nat × Key)
  | .expired _ n id => some (n,id)
  | .read _ n id _ => some (n,id)
  | .deleted _ n id _ => some (n,id)
  | _ => none

structure Timed (s : State) : Prop where
  students : Dict.Distinct s.students
  timers : Dict.Distinct s.timers
  covered : ∀ id ∈ Dict.keys s.students, id ∈ Dict.keys s.timers ∨ s.server = .stored id
  current : ∀ n id, entry s.checker = some (n,id) → ∃ v, s.timers[n]? = some (id,v)
  taken : ∀ curr n id state, s.checker = .deleted curr n id state →
    id ∉ Dict.keys s.students ∨ s.server = .stored id

theorem memKeysIff {α : Type} {d : Dict α} {id : Key} :
    id ∈ Dict.keys d ↔ Dict.lookup d id ≠ none := by
  rw [ne_eq,Dict.lookupNone,not_not]

theorem setKeys {α : Type} {d : Dict α} {key id : Key} {value : α} :
    id ∈ Dict.keys (Dict.set d key value) ↔ key = id ∨ id ∈ Dict.keys d := by
  rw [memKeysIff,memKeysIff,Dict.setLookup]
  split <;> simp [*]

theorem delKeys {α : Type} {d : Dict α} (distinct : Dict.Distinct d) {key id : Key} :
    id ∈ Dict.keys (Dict.del d key).1 ↔ key ≠ id ∧ id ∈ Dict.keys d := by
  rw [memKeysIff,memKeysIff,Dict.delLookup distinct]
  split <;> simp [*]

theorem initialTimed : Timed initial := by
  constructor <;> simp [initial,Dict.newDict,Dict.Distinct,Dict.keys,entry]

theorem serverFree {s : State} (timed : Timed s) (free : ∀ id, s.server ≠ .stored id) :
    (∀ id ∈ Dict.keys s.students, id ∈ Dict.keys s.timers) ∧
    ∀ curr n id state, s.checker = .deleted curr n id state → id ∉ Dict.keys s.students :=
  ⟨fun id mem => (timed.covered id mem).resolve_right (free id),
    fun curr n id state taking => (timed.taken curr n id state taking).resolve_right (free id)⟩

theorem setTimed {timeout s t} (timed : Timed s) (h : step timeout s .set = some t) : Timed t := by
  obtain ⟨id,action,state,here,rfl⟩ := stepSet h
  obtain ⟨covered,gone⟩ := serverFree timed (by simp [here])
  refine ⟨Dict.setDistinct timed.students ..,timed.timers,?_,timed.current,?_⟩
  · intro other mem
    rcases setKeys.mp mem with rfl | before
    · exact .inr rfl
    · exact .inl (covered other before)
  · intro curr n other held taking
    by_cases same : id = other
    · exact .inr (congrArg Server.stored same)
    · exact .inl (fun mem => gone curr n other held taking ((setKeys.mp mem).resolve_left same))

theorem setTimeoutTimed {timeout s now t} (timed : Timed s)
    (h : step timeout s (.setTimeout now) = some t) : Timed t := by
  obtain ⟨id,stored,resting,rfl⟩ := stepSetTimeout h
  refine ⟨timed.students,Dict.setDistinct timed.timers ..,?_,by simp [resting,entry],by simp [resting]⟩
  intro other mem
  refine .inl (setKeys.mpr ?_)
  rcases timed.covered other mem with before | server
  · exact .inr before
  · exact .inl (Server.stored.inj (stored.symm.trans server))

theorem testTimed {timeout s t} (timed : Timed s) (h : step timeout s .test = some t) :
    Timed t := by
  obtain ⟨curr,n,key,value,-,there,rfl⟩ := stepTest h
  refine ⟨timed.students,timed.timers,timed.covered,?_,?_⟩
  · intro m id working
    simp only at working
    split at working
    · obtain ⟨rfl,rfl⟩ := Prod.mk.inj (Option.some.inj working)
      exact ⟨value,there⟩
    · simp [entry] at working
  · intro curr' m id state taking
    simp only at taking
    split at taking <;> contradiction

theorem delStudentTimed {timeout s t} (timed : Timed s)
    (h : step timeout s .delStudent = some t) : Timed t := by
  obtain ⟨curr,n,id,state,here,rfl⟩ := stepDelStudent h
  have working : entry s.checker = some (n,id) := by rw [here]; rfl
  refine ⟨Dict.delDistinct timed.students id,timed.timers,?_,?_,?_⟩
  · intro other mem
    exact timed.covered other ((delKeys timed.students).mp mem).2
  · intro m other same
    obtain ⟨rfl,rfl⟩ := Prod.mk.inj (Option.some.inj same)
    exact timed.current n id working
  · intro curr' m other held taking
    cases taking
    exact .inl (fun mem => ((delKeys timed.students).mp mem).1 rfl)

theorem unlinkTimed {timeout s t} (timed : Timed s) (h : step timeout s .unlink = some t) :
    Timed t := by
  obtain ⟨curr,n,id,state,here,rfl⟩ := stepUnlink h
  obtain ⟨v,there⟩ := timed.current n id (by rw [here]; rfl)
  have same := Dict.removeDel timed.timers there
  refine ⟨timed.students,?_,?_,by simp [entry],by simp⟩
  · rw [same]
    exact Dict.delDistinct timed.timers id
  · intro other mem
    rw [same,delKeys timed.timers]
    rcases timed.covered other mem with before | stored
    · by_cases hit : id = other
      · subst other
        exact .inr ((timed.taken curr n id state here).resolve_left (fun gone => gone mem))
      · exact .inl ⟨hit,before⟩
    · exact .inr stored

theorem stepTimed {timeout s a t} (timed : Timed s) (h : step timeout s a = some t) : Timed t := by
  cases a with
  | get id action =>
    obtain ⟨here,rfl⟩ := stepGet h
    obtain ⟨covered,gone⟩ := serverFree timed (by simp [here])
    exact ⟨timed.students,timed.timers,fun other mem => .inl (covered other mem),timed.current,
      fun curr n other held taking => .inl (gone curr n other held taking)⟩
  | set => exact setTimed timed h
  | setTimeout now => exact setTimeoutTimed timed h
  | lock curr =>
    obtain ⟨-,rfl⟩ := stepLock h
    exact ⟨timed.students,timed.timers,timed.covered,by simp [entry],by simp⟩
  | test => exact testTimed timed h
  | getStudent =>
    obtain ⟨curr,n,id,here,rfl⟩ := stepGetStudent h
    refine ⟨timed.students,timed.timers,timed.covered,?_,by simp⟩
    intro m other same
    exact timed.current m other (by rw [here]; exact same)
  | delStudent => exact delStudentTimed timed h
  | unlink => exact unlinkTimed timed h
  | decide =>
    obtain ⟨curr,n,id,state,-,rfl⟩ := stepDecide h
    exact ⟨timed.students,timed.timers,timed.covered,by simp [entry],by simp⟩
  | unlock =>
    obtain ⟨curr,n,-,-,rfl⟩ := stepUnlock h
    exact ⟨timed.students,timed.timers,timed.covered,by simp [entry],by simp⟩

theorem runTimed {timeout acts s} (run : Runs.exec (step timeout) initial acts = some s) :
    Timed s :=
  Runs.invariant (fun _ _ _ => stepTimed) initialTimed run

/-! A student `id` in state `cell`, last read at `seen`, that is not stored any more. It waits
until a pass sees its timer expired, leaves the two dictionaries one after the other in that
pass, and is gone then. `before` lists the earlier evaluations of the same id. -/

def evaluations (s : State) (id : Key) : List (Key × Cell) :=
  s.evaluated.filter (fun item => item.1 = id)

def working : Checker → Option Key
  | .expired _ _ id => some id
  | .read _ _ id _ => some id
  | .deleted _ _ id _ => some id
  | .unlinked _ _ id _ => some id
  | _ => none

def pass (s : State) : Option (Clock × Dict Int) :=
  match s.checker with
  | .idle => none
  | .loop curr n => some (curr,s.timers.drop n)
  | .expired curr n _ => some (curr,s.timers.drop (n + 1))
  | .read curr n _ _ => some (curr,s.timers.drop (n + 1))
  | .deleted curr n _ _ => some (curr,s.timers.drop (n + 1))
  | .unlinked curr n _ _ => some (curr,s.timers.drop n)

structure Subject where
  id : Key
  cell : Cell
  seen : Int
  before : List (Key × Cell)

def expired (timeout : Int) (x : Subject) (curr : Clock) : Bool :=
  decide (curr.val - x.seen ≥ timeout)

def overdue (timeout : Int) (x : Subject) (s : State) : Bool :=
  (pass s).any (fun p => expired timeout x p.1)

structure Waiting (timeout : Int) (x : Subject) (s : State) : Prop where
  student : Dict.lookup s.students x.id = some x.cell
  timer : Dict.lookup s.timers x.id = some x.seen
  evaluated : evaluations s x.id = x.before
  apart : working s.checker ≠ some x.id
  ahead : ∀ curr rest, pass s = some (curr,rest) → expired timeout x curr → (x.id,x.seen) ∈ rest

def Leaving (x : Subject) (s : State) : Prop :=
  evaluations s x.id = x.before ∧ match s.checker with
  | .expired _ _ id => id = x.id ∧ Dict.lookup s.students x.id = some x.cell
  | .read _ _ id state => id = x.id ∧ state = x.cell
  | .deleted _ _ id state => id = x.id ∧ state = x.cell ∧ Dict.lookup s.students x.id = none
  | .unlinked _ _ id state => id = x.id ∧ state = x.cell ∧
      Dict.lookup s.students x.id = none ∧ Dict.lookup s.timers x.id = none
  | _ => False

structure Gone (x : Subject) (s : State) : Prop where
  student : Dict.lookup s.students x.id = none
  timer : Dict.lookup s.timers x.id = none
  evaluated : evaluations s x.id = x.before ++ [(x.id,x.cell)]
  apart : working s.checker ≠ some x.id

-- `due`: some pass so far has found the timer expired.
def Tracked (timeout : Int) (x : Subject) (due : Bool) (s : State) : Prop :=
  Waiting timeout x s ∧ due = overdue timeout x s ∨ due = true ∧ (Leaving x s ∨ Gone x s)

def reading : Server → Option Key
  | .read id _ _ => some id
  | _ => none

def Quiet (id : Key) (s : State) (a : Act) : Prop := a = .set → reading s.server ≠ some id

instance (id s a) : Decidable (Quiet id s a) := inferInstanceAs (Decidable (_ → _))

def sees (timeout : Int) (x : Subject) : Act → Bool
  | .lock curr => expired timeout x curr
  | _ => false

/- A step of the server thread changes neither dictionary at `id`. -/
structure Aside (x : Subject) (s t : State) : Prop where
  students : Dict.lookup t.students x.id = Dict.lookup s.students x.id
  timers : Dict.lookup t.timers x.id = Dict.lookup s.timers x.id
  checker : t.checker = s.checker
  evaluated : t.evaluated = s.evaluated
  locked : s.checker = .idle ∨ t.timers = s.timers

theorem asidePass {x s t} (aside : Aside x s t) : pass t = pass s := by
  unfold pass
  rw [aside.checker]
  rcases aside.locked with resting | same
  · rw [resting]
  · rw [same]

theorem asideTracked {timeout x due s t} (aside : Aside x s t)
    (tracked : Tracked timeout x due s) : Tracked timeout x due t := by
  have samePass := asidePass aside
  obtain ⟨students,timers,checker,evaluated,-⟩ := aside
  have same : evaluations t x.id = evaluations s x.id := by rw [evaluations,evaluations,evaluated]
  rcases tracked with ⟨waiting,counted⟩ | ⟨seen,leaving | gone⟩
  · refine .inl ⟨⟨students.trans waiting.student,timers.trans waiting.timer,
      same.trans waiting.evaluated,?_,?_⟩,?_⟩
    · rw [checker]; exact waiting.apart
    · rw [samePass]; exact waiting.ahead
    · rw [counted,overdue,overdue,samePass]
  · refine .inr ⟨seen,.inl ⟨same.trans leaving.1,?_⟩⟩
    rw [checker,students,timers]
    exact leaving.2
  · refine .inr ⟨seen,.inr ⟨students.trans gone.student,timers.trans gone.timer,
      same.trans gone.evaluated,?_⟩⟩
    rw [checker]; exact gone.apart

theorem serverAside {timeout x s a t} (settled : s.server ≠ .stored x.id)
    (quiet : Quiet x.id s a) (h : step timeout s a = some t)
    (server : (∃ id action, a = .get id action) ∨ a = .set ∨ ∃ now, a = .setTimeout now) :
    Aside x s t := by
  rcases server with ⟨id,action,rfl⟩ | rfl | ⟨now,rfl⟩
  · obtain ⟨-,rfl⟩ := stepGet h
    exact ⟨rfl,rfl,rfl,rfl,.inr rfl⟩
  · obtain ⟨id,action,state,here,rfl⟩ := stepSet h
    have other : id ≠ x.id := by
      rintro rfl
      exact quiet rfl (by rw [here]; rfl)
    exact ⟨by rw [Dict.setLookup,if_neg other],rfl,rfl,rfl,.inr rfl⟩
  · obtain ⟨id,here,resting,rfl⟩ := stepSetTimeout h
    have other : id ≠ x.id := by
      rintro rfl
      exact settled here
    exact ⟨rfl,by rw [Dict.setLookup,if_neg other],rfl,rfl,.inl resting⟩

theorem leavingWorks {x s} (leaving : Leaving x s) : working s.checker = some x.id := by
  have phase := leaving.2
  split at phase <;> simp_all [working]

theorem busyLeaves {timeout x due s} (busy : working s.checker = some x.id)
    (tracked : Tracked timeout x due s) : due = true ∧ Leaving x s := by
  rcases tracked with ⟨waiting,-⟩ | ⟨seen,leaving | gone⟩
  · exact absurd busy waiting.apart
  · exact ⟨seen,leaving⟩
  · exact absurd busy gone.apart

theorem otherTracked {timeout x due s t} (apart : working s.checker ≠ some x.id)
    (still : working t.checker ≠ some x.id)
    (students : Dict.lookup t.students x.id = Dict.lookup s.students x.id)
    (timers : Dict.lookup t.timers x.id = Dict.lookup s.timers x.id)
    (evaluated : evaluations t x.id = evaluations s x.id) (samePass : pass t = pass s)
    (tracked : Tracked timeout x due s) : Tracked timeout x due t := by
  rcases tracked with ⟨waiting,counted⟩ | ⟨seen,leaving | gone⟩
  · refine .inl ⟨⟨students.trans waiting.student,timers.trans waiting.timer,
      evaluated.trans waiting.evaluated,still,?_⟩,?_⟩
    · rw [samePass]; exact waiting.ahead
    · rw [counted,overdue,overdue,samePass]
  · exact absurd (leavingWorks leaving) apart
  · exact .inr ⟨seen,.inr ⟨students.trans gone.student,timers.trans gone.timer,
      evaluated.trans gone.evaluated,still⟩⟩

theorem lockTracked {timeout x due curr s t} (tracked : Tracked timeout x due s)
    (h : step timeout s (.lock curr) = some t) :
    Tracked timeout x (due || expired timeout x curr) t := by
  obtain ⟨resting,rfl⟩ := stepLock h
  rcases tracked with ⟨waiting,counted⟩ | ⟨rfl,leaving | gone⟩
  · obtain ⟨student,timer,evaluated,-,-⟩ := waiting
    refine .inl ⟨⟨student,timer,evaluated,by simp [working],?_⟩,?_⟩
    · intro curr' rest started _
      obtain ⟨rfl,rfl⟩ := Prod.mk.inj (Option.some.inj started)
      exact Dict.lookupSomeMem timer
    · rw [counted,overdue,overdue]
      simp [pass,resting]
  · exact absurd (leavingWorks leaving) (by simp [resting,working])
  · exact .inr ⟨rfl,.inr ⟨gone.student,gone.timer,gone.evaluated,by simp [working]⟩⟩

theorem dropCons {α : Type} {d : List α} {n : Nat} {item : α} (there : d[n]? = some item) :
    d.drop n = item :: d.drop (n + 1) := by
  obtain ⟨inside,rfl⟩ := List.getElem?_eq_some_iff.mp there
  exact List.drop_eq_getElem_cons inside

theorem testTracked {timeout x due s t} (timed : Timed s) (tracked : Tracked timeout x due s)
    (h : step timeout s .test = some t) : Tracked timeout x due t := by
  obtain ⟨curr,n,key,value,here,there,rfl⟩ := stepTest h
  have started : pass s = some (curr,(key,value) :: s.timers.drop (n + 1)) := by
    simp only [pass,here]
    rw [dropCons there]
  have mem := List.mem_of_getElem? there
  rcases tracked with ⟨waiting,counted⟩ | ⟨rfl,leaving | gone⟩
  · obtain ⟨student,timer,evaluated,-,ahead⟩ := waiting
    have later : expired timeout x curr → (x.id,x.seen) ≠ (key,value) →
        (x.id,x.seen) ∈ s.timers.drop (n + 1) := fun due other =>
      (List.mem_cons.mp (ahead curr _ started due)).resolve_left other
    have due_now : due = expired timeout x curr := by rw [counted,overdue,started]; rfl
    by_cases out : curr.val - value ≥ timeout
    · simp only [if_pos out]
      by_cases same : key = x.id
      · subst key
        have value_seen : value = x.seen := by
          have found := Dict.lookupOfMem timed.timers mem
          rw [timer] at found
          exact (Option.some.inj found).symm
        subst value
        exact .inr ⟨due_now.trans (decide_eq_true out),.inl ⟨evaluated,rfl,student⟩⟩
      · refine .inl ⟨⟨student,timer,evaluated,?_,?_⟩,due_now⟩
        · simpa [working] using same
        · intro curr' rest now overdue
          obtain ⟨rfl,rfl⟩ := Prod.mk.inj (Option.some.inj now)
          exact later overdue (fun hit => same (Prod.mk.inj hit).1.symm)
    · simp only [if_neg out]
      refine .inl ⟨⟨student,timer,evaluated,by simp [working],?_⟩,due_now⟩
      intro curr' rest now overdue
      obtain ⟨rfl,rfl⟩ := Prod.mk.inj (Option.some.inj now)
      refine later overdue (fun hit => out ?_)
      rw [← (Prod.mk.inj hit).2]
      exact of_decide_eq_true overdue
  · exact absurd (leavingWorks leaving) (by simp [here,working])
  · have other : key ≠ x.id := by
      rintro rfl
      exact absurd gone.timer (by simp [Dict.lookupOfMem timed.timers mem])
    refine .inr ⟨rfl,.inr ⟨gone.student,gone.timer,gone.evaluated,?_⟩⟩
    simp only
    split
    · simpa [working] using other
    · simp [working]

theorem getStudentTracked {timeout x due s t} (tracked : Tracked timeout x due s)
    (h : step timeout s .getStudent = some t) : Tracked timeout x due t := by
  obtain ⟨curr,n,id,here,rfl⟩ := stepGetStudent h
  by_cases same : id = x.id
  · subst id
    have busy : working s.checker = some x.id := by rw [here]; rfl
    obtain ⟨rfl,evaluated,phase⟩ := busyLeaves busy tracked
    simp only [here,true_and] at phase
    have cell : view s x.id = x.cell := by simp [view,Dict.get,phase]
    exact .inr ⟨rfl,.inl ⟨evaluated,rfl,cell⟩⟩
  · have apart : working s.checker ≠ some x.id := by simpa [here,working] using same
    exact otherTracked apart (by simpa [working] using same) rfl rfl rfl (by simp [pass,here]) tracked

theorem delStudentTracked {timeout x due s t} (timed : Timed s) (tracked : Tracked timeout x due s)
    (h : step timeout s .delStudent = some t) : Tracked timeout x due t := by
  obtain ⟨curr,n,id,state,here,rfl⟩ := stepDelStudent h
  by_cases same : id = x.id
  · subst id
    have busy : working s.checker = some x.id := by rw [here]; rfl
    obtain ⟨rfl,evaluated,phase⟩ := busyLeaves busy tracked
    simp only [here,true_and] at phase
    refine .inr ⟨rfl,.inl ⟨evaluated,rfl,phase,?_⟩⟩
    rw [Dict.delLookup timed.students,if_pos rfl]
  · have apart : working s.checker ≠ some x.id := by simpa [here,working] using same
    exact otherTracked apart (by simpa [working] using same)
      (by rw [Dict.delLookup timed.students,if_neg same]) rfl rfl (by simp [pass,here]) tracked

theorem dropRemove {α : Type} {d : Dict α} {n : Nat} (inside : n < d.length) :
    (Dict.remove d n).drop n = d.drop (n + 1) := by
  rw [Dict.remove,List.eraseIdx_eq_take_drop_succ]
  exact List.drop_left' (List.length_take_of_le (Nat.le_of_lt inside))

theorem unlinkTracked {timeout x due s t} (timed : Timed s) (tracked : Tracked timeout x due s)
    (h : step timeout s .unlink = some t) : Tracked timeout x due t := by
  obtain ⟨curr,n,id,state,here,rfl⟩ := stepUnlink h
  obtain ⟨v,there⟩ := timed.current n id (by rw [here]; rfl)
  have removed := Dict.removeDel timed.timers there
  by_cases same : id = x.id
  · subst id
    have busy : working s.checker = some x.id := by rw [here]; rfl
    obtain ⟨rfl,evaluated,phase⟩ := busyLeaves busy tracked
    simp only [here,true_and] at phase
    refine .inr ⟨rfl,.inl ⟨evaluated,rfl,phase.1,phase.2,?_⟩⟩
    simp only
    rw [removed,Dict.delLookup timed.timers,if_pos rfl]
  · have apart : working s.checker ≠ some x.id := by simpa [here,working] using same
    refine otherTracked apart (by simpa [working] using same) rfl ?_ rfl ?_ tracked
    · simp only
      rw [removed,Dict.delLookup timed.timers,if_neg same]
    · simp only [pass,here]
      rw [dropRemove (List.getElem?_eq_some_iff.mp there).1]

theorem decideTracked {timeout x due s t} (tracked : Tracked timeout x due s)
    (h : step timeout s .decide = some t) : Tracked timeout x due t := by
  obtain ⟨curr,n,id,state,here,rfl⟩ := stepDecide h
  by_cases same : id = x.id
  · subst id
    have busy : working s.checker = some x.id := by rw [here]; rfl
    obtain ⟨rfl,evaluated,phase⟩ := busyLeaves busy tracked
    simp only [here,true_and] at phase
    obtain ⟨rfl,student,timer⟩ := phase
    refine .inr ⟨rfl,.inr ⟨student,timer,?_,by simp [working]⟩⟩
    rw [← evaluated]
    simp [evaluations]
  · have apart : working s.checker ≠ some x.id := by simpa [here,working] using same
    refine otherTracked apart (by simp [working]) rfl rfl ?_ (by simp [pass,here]) tracked
    simp [evaluations,same]

theorem unlockTracked {timeout x due s t} (tracked : Tracked timeout x due s)
    (h : step timeout s .unlock = some t) : Tracked timeout x due t := by
  obtain ⟨curr,n,here,ended,rfl⟩ := stepUnlock h
  have nothing : s.timers.drop n = [] := List.drop_eq_nil_of_le (List.getElem?_eq_none_iff.mp ended)
  have started : pass s = some (curr,[]) := by simp only [pass,here,nothing]
  rcases tracked with ⟨waiting,counted⟩ | ⟨rfl,leaving | gone⟩
  · have early : expired timeout x curr = false := by
      by_contra overdue
      simp only [Bool.not_eq_false] at overdue
      exact absurd (waiting.ahead curr [] started overdue) List.not_mem_nil
    refine .inl ⟨⟨waiting.student,waiting.timer,waiting.evaluated,by simp [working],
      by simp [pass]⟩,?_⟩
    rw [counted,overdue,overdue,started]
    simp [pass,early]
  · exact absurd (leavingWorks leaving) (by simp [here,working])
  · exact .inr ⟨rfl,.inr ⟨gone.student,gone.timer,gone.evaluated,by simp [working]⟩⟩

theorem staysSettled {timeout id s a t} (settled : s.server ≠ .stored id) (quiet : Quiet id s a)
    (h : step timeout s a = some t) : t.server ≠ .stored id := by
  cases a with
  | get other action =>
    obtain ⟨-,rfl⟩ := stepGet h
    simp
  | set =>
    obtain ⟨other,action,state,here,rfl⟩ := stepSet h
    intro same
    cases same
    exact quiet rfl (by rw [here]; rfl)
  | setTimeout now =>
    obtain ⟨-,-,-,rfl⟩ := stepSetTimeout h
    simp
  | lock curr =>
    obtain ⟨-,rfl⟩ := stepLock h
    exact settled
  | test =>
    obtain ⟨_,_,_,_,-,-,rfl⟩ := stepTest h
    exact settled
  | getStudent =>
    obtain ⟨_,_,_,-,rfl⟩ := stepGetStudent h
    exact settled
  | delStudent =>
    obtain ⟨_,_,_,_,-,rfl⟩ := stepDelStudent h
    exact settled
  | unlink =>
    obtain ⟨_,_,_,_,-,rfl⟩ := stepUnlink h
    exact settled
  | decide =>
    obtain ⟨_,_,_,_,-,rfl⟩ := stepDecide h
    exact settled
  | unlock =>
    obtain ⟨_,_,-,-,rfl⟩ := stepUnlock h
    exact settled

theorem stepTracked {timeout x due s a t} (timed : Timed s) (settled : s.server ≠ .stored x.id)
    (quiet : Quiet x.id s a) (tracked : Tracked timeout x due s) (h : step timeout s a = some t) :
    Tracked timeout x (due || sees timeout x a) t := by
  have aside := serverAside settled quiet h
  cases a with
  | lock curr => exact lockTracked tracked h
  | get id action => simpa [sees] using asideTracked (aside (by simp)) tracked
  | set => simpa [sees] using asideTracked (aside (by simp)) tracked
  | setTimeout now => simpa [sees] using asideTracked (aside (by simp)) tracked
  | test => simpa [sees] using testTracked timed tracked h
  | getStudent => simpa [sees] using getStudentTracked tracked h
  | delStudent => simpa [sees] using delStudentTracked timed tracked h
  | unlink => simpa [sees] using unlinkTracked timed tracked h
  | decide => simpa [sees] using decideTracked tracked h
  | unlock => simpa [sees] using unlockTracked tracked h

theorem runTracked {timeout x later s t} (due : Bool) (timed : Timed s)
    (settled : s.server ≠ .stored x.id) (quiet : Runs.Meets (step timeout) (Quiet x.id) s later)
    (tracked : Tracked timeout x due s) (run : Runs.exec (step timeout) s later = some t) :
    Tracked timeout x (due || later.any (sees timeout x)) t := by
  induction later generalizing s due with
  | nil =>
    cases Option.some.inj run
    simpa using tracked
  | cons a rest ih =>
    obtain ⟨m,moved,run⟩ := Runs.execCons run
    obtain ⟨silent,quiet⟩ := quiet m moved
    rw [List.any_cons,← Bool.or_assoc]
    exact ih _ (stepTimed timed moved) (staysSettled settled silent moved) quiet
      (stepTracked timed settled silent tracked moved) run

/- A timer whose student is gone when check_timers reads it. -/
def Empty (curr : Clock) (n : Nat) (id : Key) (old : List Merger.Notice) (s : State) : Prop :=
  s.notices = old ∧ (s.checker = .read curr n id absent ∨ s.checker = .deleted curr n id absent ∨
    s.checker = .unlinked curr n id absent)

theorem stepEmpty {timeout curr n id old s a t} (empty : Empty curr n id old s)
    (other : a ≠ .decide) (h : step timeout s a = some t) : Empty curr n id old t := by
  obtain ⟨notices,phase⟩ := empty
  cases a with
  | get key action =>
    obtain ⟨-,rfl⟩ := stepGet h
    exact ⟨notices,phase⟩
  | set =>
    obtain ⟨_,_,_,-,rfl⟩ := stepSet h
    exact ⟨notices,phase⟩
  | setTimeout now =>
    obtain ⟨_,-,resting,-⟩ := stepSetTimeout h
    simp [resting] at phase
  | lock now =>
    obtain ⟨resting,-⟩ := stepLock h
    simp [resting] at phase
  | test =>
    obtain ⟨_,_,_,_,here,-,-⟩ := stepTest h
    simp [here] at phase
  | getStudent =>
    obtain ⟨_,_,_,here,-⟩ := stepGetStudent h
    simp [here] at phase
  | delStudent =>
    obtain ⟨_,_,_,_,here,rfl⟩ := stepDelStudent h
    simp only [here,Checker.read.injEq,reduceCtorEq,or_false] at phase
    obtain ⟨rfl,rfl,rfl,rfl⟩ := phase
    exact ⟨notices,.inr (.inl rfl)⟩
  | unlink =>
    obtain ⟨_,_,_,_,here,rfl⟩ := stepUnlink h
    simp only [here,Checker.deleted.injEq,reduceCtorEq,or_false,false_or] at phase
    obtain ⟨rfl,rfl,rfl,rfl⟩ := phase
    exact ⟨notices,.inr (.inr rfl)⟩
  | decide => exact absurd rfl other
  | unlock =>
    obtain ⟨_,_,here,-,-⟩ := stepUnlock h
    simp [here] at phase

theorem decideEmpty {timeout curr n id old s t} (empty : Empty curr n id old s)
    (h : step timeout s .decide = some t) : t.notices = old := by
  obtain ⟨notices,phase⟩ := empty
  obtain ⟨_,_,_,state,here,rfl⟩ := stepDecide h
  simp only [here,Checker.unlinked.injEq,reduceCtorEq,false_or] at phase
  obtain ⟨rfl,rfl,rfl,rfl⟩ := phase
  have quiet : verdict (ofInt absent.value) = none := by decide
  simp [quiet,notices]

theorem ownNotices {s : State} (decided : Decided s) (id : Key) :
    Keyed.ofKey Prod.fst id s.notices = (evaluations s id).flatMap verdicts := by
  rw [decided,evaluations]
  induction s.evaluated with
  | nil => rfl
  | cons item rest ih =>
    rw [List.flatMap_cons,Keyed.ofKeyAppend,ih,List.filter_cons]
    have key : ∀ x ∈ verdicts item, x.1 = item.1 := by
      intro x mem
      obtain ⟨action,-,rfl⟩ := List.mem_map.mp mem
      rfl
    by_cases same : item.1 = id
    · rw [if_pos (decide_eq_true same),List.flatMap_cons,
        Keyed.ofKeySame (fun x mem => (key x mem).trans same)]
    · rw [if_neg (by simpa using same),List.append_left_eq_self]
      exact Keyed.ofKeyOther (fun x mem own => same ((key x mem).symm.trans own))

/-- In every reachable state the dictionaries have distinct keys, and only the student that
handle_student has stored and not timed yet can lack a timer. A student that is not read any
more keeps its state and its timer until the first pass that finds the timer expired; that
pass evaluates it once, notifies its verdict and removes both. A timer without a student notifies nobody. -/
theorem noStudentWithoutTimer (timeout : Int) (acts : List Act) (s : State)
    (run : Runs.exec (step timeout) initial acts = some s) :
    Dict.Distinct s.students ∧ Dict.Distinct s.timers ∧
    (∀ id ∈ Dict.keys s.students, id ∈ Dict.keys s.timers ∨ s.server = .stored id) ∧
    (∀ id c, s.checker = .idle → s.server ≠ .stored id → Dict.lookup s.students id = some c →
      ∃ seen, Dict.lookup s.timers id = some seen ∧ ∀ later t,
        Runs.Meets (step timeout) (Quiet id) s later →
        Runs.exec (step timeout) s later = some t → t.checker = .idle →
        ((∃ curr : Clock, .lock curr ∈ later ∧ curr.val - seen ≥ timeout) →
          Dict.lookup t.students id = none ∧ Dict.lookup t.timers id = none ∧
            evaluations t id = evaluations s id ++ [(id,c)] ∧
            Keyed.ofKey Prod.fst id t.notices = Keyed.ofKey Prod.fst id s.notices ++ verdicts (id,c)) ∧
        ((∀ curr : Clock, .lock curr ∈ later → curr.val - seen < timeout) →
          Dict.lookup t.students id = some c ∧ Dict.lookup t.timers id = some seen ∧
            evaluations t id = evaluations s id ∧
            Keyed.ofKey Prod.fst id t.notices = Keyed.ofKey Prod.fst id s.notices)) ∧
    (∀ curr n id, s.checker = .expired curr n id → Dict.lookup s.students id = none →
      ∀ later t u, Act.decide ∉ later →
        Runs.exec (step timeout) s (.getStudent :: later) = some t →
        step timeout t .decide = some u → u.notices = s.notices) := by
  have timed := runTimed run
  refine ⟨timed.students,timed.timers,timed.covered,?_,?_⟩
  · intro id c resting settled student
    have known := timed.covered id (memKeysIff.mpr (by simp [student]))
    obtain ⟨seen,timer⟩ := Option.ne_none_iff_exists'.mp (memKeysIff.mp (known.resolve_right settled))
    refine ⟨seen,timer,fun later t quiet later_run idle => ?_⟩
    have waiting : Tracked timeout ⟨id,c,seen,evaluations s id⟩ false s :=
      .inl ⟨⟨student,timer,rfl,by simp [resting,working],by simp [pass,resting]⟩,
        by simp [overdue,pass,resting]⟩
    have tracked := runTracked false timed settled quiet waiting later_run
    simp only [Bool.false_or] at tracked
    have before := ownNotices (runDecided run) id
    have after := ownNotices (Runs.invariant (fun _ _ _ => stepDecided) (runDecided run) later_run) id
    rcases tracked with ⟨⟨student,timer,evaluated,-,-⟩,counted⟩ | ⟨found,leaving | gone⟩
    · have unseen : later.any (sees timeout ⟨id,c,seen,evaluations s id⟩) = false := by
        rw [counted]; simp [overdue,pass,idle]
      have same := after.trans ((congrArg (List.flatMap verdicts) evaluated).trans before.symm)
      refine ⟨fun ⟨curr,mem,late⟩ => ?_,fun _ => ⟨student,timer,evaluated,same⟩⟩
      exact absurd (decide_eq_true late) (List.any_eq_false.mp unseen _ mem)
    · exact absurd (leavingWorks leaving) (by simp [idle,working])
    · refine ⟨fun _ => ⟨gone.student,gone.timer,gone.evaluated,?_⟩,fun early => ?_⟩
      · rw [after,before,gone.evaluated,List.flatMap_append,List.flatMap_singleton]
      obtain ⟨a,mem,late⟩ := List.any_eq_true.mp found
      cases a with
      | lock curr => exact absurd (early curr mem) (Int.not_lt.mpr (of_decide_eq_true late))
      | _ => exact absurd late Bool.false_ne_true
  · intro curr n id here gone later t u quiet later_run decided
    obtain ⟨m,moved,rest⟩ := Runs.execCons later_run
    obtain ⟨curr',n',id',there,rfl⟩ := stepGetStudent moved
    obtain ⟨rfl,rfl,rfl⟩ := Checker.expired.inj (here.symm.trans there)
    have empty : Empty curr n id s.notices {s with checker := .read curr n id (view s id)} :=
      ⟨rfl,.inl (by simp [view,Dict.get,gone])⟩
    have keeps (u : State) (a : Act) (v : State) (empty : Empty curr n id s.notices u)
        (other : a ≠ .decide) (moved : step timeout u a = some v) : Empty curr n id s.notices v :=
      stepEmpty empty other moved
    have other : ∀ a ∈ later, a ≠ Act.decide := fun a mem same => quiet (same ▸ mem)
    exact decideEmpty (Runs.invariantUnder keeps empty (Runs.meetsOf other) rest) decided

def oneReading : List Act := [.get [48] true,.set,.setTimeout ⟨1,by decide⟩]

def expiringPass : List Act :=
  [.lock ⟨61,by decide⟩,.test,.get [49] false,.getStudent,.delStudent,.set,.unlink,.decide,.unlock]

def afterReading : State :=
  ⟨[([48],⟨272,[⟨0,[48],true⟩]⟩)],[([48],1)],.idle,.idle,[⟨0,[48],true⟩],[],[]⟩

def afterPass : State :=
  ⟨[([49],⟨1,[⟨1,[49],false⟩]⟩)],[],.stored [49],.idle,[⟨0,[48],true⟩,⟨1,[49],false⟩],
    [([48],⟨272,[⟨0,[48],true⟩]⟩)],[]⟩

theorem noStudentWithoutTimerOne :
    Dict.lookup afterPass.students [48] = none ∧ Dict.lookup afterPass.timers [48] = none ∧
      evaluations afterPass [48] = [([48],⟨272,[⟨0,[48],true⟩]⟩)] ∧
      Keyed.ofKey Prod.fst [48] afterPass.notices = [] := by
  have read : Runs.exec (step 60) initial oneReading = some afterReading := by decide
  have later : Runs.exec (step 60) afterReading expiringPass = some afterPass := by decide
  obtain ⟨-,-,-,removed,-⟩ := noStudentWithoutTimer 60 oneReading afterReading read
  obtain ⟨seen,timer,passes⟩ := removed [48] _ rfl (by decide) rfl
  cases timer
  have quiet : Runs.Meets (step 60) (Quiet [48]) afterReading expiringPass := by decide
  exact (passes expiringPass afterPass quiet later rfl).1
    ⟨⟨61,by decide⟩,List.mem_cons_self,by decide⟩

end RfidStation.Timers
