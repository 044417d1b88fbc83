import RfidStation.DictHeap

/-! The two dictionaries from new_dict on, through any sequence of calls, against finite maps. -/
namespace RfidStation.DictRuns
open Cstr Config Linked Merger DictHeap

inductive Name where
  | students
  | timers
  deriving DecidableEq, Repr

abbrev CInt := {v : Int // -2147483648 ≤ v ∧ v < 2147483648}

def Value : Name → Type
  | .students => CInt
  | .timers => Clock

def number : (d : Name) → Value d → Int
  | .students, v => v.val
  | .timers, v => v.val

/- `fresh` is the cell that safe_malloc gives if it is called. -/
inductive Act where
  | set (d : Name) (key : Key) (value : Value d) (fresh : Nat)
  | get (d : Name) (key : Key)
  | del (d : Name) (key : Key)
  | checkTimers (conf : Conf) (now : Clock)

structure State where
  heap : Memory
  students : Nat
  timers : Nat
  notices : List Notice

def State.dict (s : State) : Name → Nat
  | .students => s.students
  | .timers => s.timers

inductive Outcome where
  | value (v : Int)
  | done (flag : Bool)
  | visited (nodes : List Nat)
  deriving DecidableEq, Repr

def start (first second : Nat) : Option State := do
  let h ← newDict (fun _ => none) first
  let h ← newDict h second
  some ⟨h,first,second,[]⟩

def perform (limit : Nat) (s : State) : Act → Option (State × Outcome)
  | .set d key value fresh => (DictHeap.set limit s.heap (s.dict d) key (number d value) fresh).map
      (fun h => ({s with heap := h},.done true))
  | .get d key => (DictHeap.get limit s.heap (s.dict d) key).map (fun v => (s,.value v))
  | .del d key => (DictHeap.del limit s.heap (s.dict d) key).map (fun r => ({s with heap := r.1},.done r.2))
  | .checkTimers conf now =>
      (DictHeap.checkTimers limit conf s.heap s.students s.timers now s.notices).map
        (fun pass => ({s with heap := pass.heap, notices := pass.notices},.visited pass.visited))

def step (limit : Nat) (s : State) (a : Act) : Option State := (perform limit s a).map Prod.fst

abbrev Maps := Name → Key → Option Int

def expired (conf : Conf) (now : Clock) (m : Maps) (key : Key) : Bool :=
  (m .timers key).any (fun value => studentTimeout conf ≤ now.val - value)

def update (m : Maps) : Act → Maps
  | .set d key value _ => fun e k => if e = d ∧ k = key then some (number d value) else m e k
  | .get .. => m
  | .del d key => fun e k => if e = d ∧ k = key then none else m e k
  | .checkTimers conf now => fun e k => if expired conf now m k then none else m e k

abbrev Entries := Name → List (Nat × (Key × Int))

structure Lists (s : State) (e : Entries) : Prop where
  behind : ∀ d, Behind store s.heap (s.dict d) sentinel (e d)
  distinct : ∀ d, (s.dict d :: addresses (e d)).Nodup
  apart : ∀ c d, c ≠ d → List.Disjoint (s.dict c :: addresses (e c)) (s.dict d :: addresses (e d))

structure Represents (s : State) (m : Maps) (e : Entries) : Prop where
  lists : Lists s e
  keys : ∀ d, Dict.Distinct (values (e d))
  lookup : ∀ d key, Dict.lookup (values (e d)) key = m d key

/- What every call does in a state that stands for the maps m. -/
structure FiniteMaps (limit : Nat) (s : State) (m : Maps) (e : Entries) : Prop where
  lists : Lists s e
  keys : ∀ d, (Dict.keys (values (e d))).Nodup
  get : ∀ d key, perform limit s (.get d key) = some (s,.value ((m d key).getD 0))
  set : ∀ d key value fresh, s.heap fresh = none →
    ∃ s', perform limit s (.set d key value fresh) = some (s',.done true)
  del : ∀ d key, ∃ s' e', perform limit s (.del d key) = some (s',.done (m d key).isSome) ∧
    Lists s' e' ∧ values (e' d) = (values (e d)).filter (fun item => item.1 ≠ key) ∧
    ∀ c, c ≠ d → e' c = e c
  pass : ∀ conf now, ∃ s' e',
    perform limit s (.checkTimers conf now) = some (s',.visited (addresses (e .timers))) ∧
    Lists s' e' ∧ e' .timers = young (studentTimeout conf) now.val (e .timers)

section
variable {limit : Nat} {s : State} {m : Maps} {e : Entries} {d : Name} {key : Key}

def put (e : Entries) (d : Name) (entries : List (Nat × (Key × Int))) : Entries :=
  fun c => if c = d then entries else e c

theorem listsPut {h' : Memory} {entries : List (Nat × (Key × Int))} (extra : List Nat) (lists : Lists s e)
    (behind : Behind store h' (s.dict d) sentinel entries) (single : extra.length ≤ 1)
    (new : ∀ q ∈ extra, s.heap q = none) (within : (addresses entries).Sublist (extra ++ addresses (e d)))
    (frame : Frame (s.dict d :: (extra ++ addresses (e d))) s.heap h') :
    Lists {s with heap := h'} (put e d entries) := by
  have unused (c : Name) : List.Disjoint extra (s.dict c :: addresses (e c)) :=
    fun q mem used => behindUsed (lists.behind c) q used (new q mem)
  have other (c : Name) (differs : c ≠ d) :
      List.Disjoint (s.dict c :: addresses (e c)) (s.dict d :: (extra ++ addresses (e d))) := by
    intro q mem inside
    rcases List.mem_cons.mp inside with rfl | inside
    · exact lists.apart c d differs mem List.mem_cons_self
    rcases List.mem_append.mp inside with added | old
    · exact unused c added mem
    · exact lists.apart c d differs mem (List.mem_cons_of_mem _ old)
  have inner : ∀ q ∈ s.dict d :: addresses entries, q ∈ s.dict d :: (extra ++ addresses (e d)) :=
    (within.cons_cons _).subset
  have here : put e d entries d = entries := if_pos rfl
  have there {c : Name} (differs : c ≠ d) : put e d entries c = e c := if_neg differs
  refine ⟨fun c => ?_,fun c => ?_,fun c c' differs => ?_⟩
  · by_cases same : c = d
    · rw [same,here]
      exact behind
    · rw [there same]
      exact behindFrame (lists.behind c) frame (other c same)
  · by_cases same : c = d
    · rw [same,here]
      refine List.Nodup.sublist (within.cons_cons _) ?_
      obtain ⟨outside,old⟩ := List.nodup_cons.mp (lists.distinct d)
      have one : extra.Nodup := by
        match extra, single with
        | [], _ => exact List.nodup_nil
        | [q], _ => exact List.nodup_singleton q
      refine List.nodup_cons.mpr ⟨fun mem => ?_,List.nodup_append'.mpr ⟨one,old,fun q mem used => ?_⟩⟩
      · rcases List.mem_append.mp mem with added | later
        · exact unused d added List.mem_cons_self
        · exact outside later
      · exact unused d mem (List.mem_cons_of_mem _ used)
    · rw [there same]
      exact lists.distinct c
  · by_cases same : c = d
    · have differs' : c' ≠ d := fun also => differs (same.trans also.symm)
      rw [same,here,there differs']
      exact fun q mem inside => other c' differs' inside (inner q mem)
    · by_cases same' : c' = d
      · rw [there same,same',here]
        exact fun q mem inside => other c same mem (inner q inside)
      · rw [there same,there same']
        exact lists.apart c c' differs

theorem representsPut {h' : Memory} {entries : List (Nat × (Key × Int))} {m' : Maps} (rep : Represents s m e)
    (lists : Lists {s with heap := h'} (put e d entries)) (distinct : Dict.Distinct (values entries))
    (lookup : ∀ key, Dict.lookup (values entries) key = m' d key) (others : ∀ c, c ≠ d → m' c = m c) :
    Represents {s with heap := h'} m' (put e d entries) := by
  refine ⟨lists,fun c => ?_,fun c key => ?_⟩
  · rw [put]
    split
    · exact distinct
    · exact rep.keys c
  · rw [put]
    split
    · rename_i same
      rw [same]
      exact lookup key
    · rename_i other
      rw [others c other]
      exact rep.lookup c key

theorem setPerforms (key : Key) (value : Value d) {fresh : Nat} (rep : Represents s m e) (enough : (e d).length < limit)
    (free : Dict.overwrite (values (e d)) key (number d value) = none → s.heap fresh = none) :
    ∃ s' e', perform limit s (.set d key value fresh) = some (s',.done true) ∧
      Represents s' (update m (.set d key value fresh)) e' ∧ ∀ c, (e' c).length ≤ (e c).length + 1 := by
  obtain ⟨h',entries,extra,done,contents,behind,single,new,within,frame⟩ :=
    setRuns (rep.lists.behind d) (rep.lists.distinct d) enough free
  have lists := listsPut extra rep.lists behind single new within frame
  have grown := within.length_le
  refine ⟨{s with heap := h'},put e d entries,by rw [perform,done]; rfl,
    representsPut rep lists ?_ (fun other => ?_) (fun c differs => ?_),?_⟩
  · rw [contents]
    exact Dict.setDistinct (rep.keys d) key _
  · rw [contents,Dict.setLookup,rep.lookup]
    simp only [update,true_and,eq_comm]
  · simp only [update,differs,false_and,if_false]
  · intro c
    rw [put]
    split
    · rename_i same
      simp only [addresses,List.length_append,List.length_map] at grown
      rw [same]
      omega
    · exact Nat.le_succ _

theorem delPerforms (key : Key) (rep : Represents s m e) (enough : (e d).length < limit) :
    ∃ s' entries, perform limit s (.del d key) = some (s',.done (m d key).isSome) ∧
      Represents s' (update m (.del d key)) (put e d entries) ∧ entries.length ≤ (e d).length ∧
      values entries = (values (e d)).filter (fun item => item.1 ≠ key) := by
  obtain ⟨h',entries,done,contents,leaves⟩ :=
    delRuns key (rep.lists.behind d) (rep.lists.distinct d) enough
  have lists := listsPut [] rep.lists leaves.behind (Nat.zero_le 1) nofun leaves.within leaves.frame
  have shorter := leaves.within.length_le
  refine ⟨{s with heap := h'},entries,?_,
    representsPut rep lists ?_ (fun other => ?_) (fun c differs => ?_),by simpa [addresses] using shorter,?_⟩
  · rw [perform,done,Dict.delFlag,rep.lookup]
    rfl
  · rw [contents]
    exact Dict.delDistinct (rep.keys d) key
  · rw [contents,Dict.delLookup (rep.keys d),rep.lookup]
    simp only [update,true_and,eq_comm]
  · simp only [update,differs,false_and,if_false]
  · rw [contents,Dict.delFilter (rep.keys d)]

theorem getPerforms (rep : Represents s m e) (enough : (e d).length < limit) :
    perform limit s (.get d key) = some (s,.value ((m d key).getD 0)) := by
  have behind := rep.lists.behind d
  have read : DictHeap.get limit s.heap (s.dict d) key = some ((m d key).getD 0) := by
    rw [DictHeap.get,behindHead behind]
    refine (getRuns behind enough).trans ?_
    rw [Dict.get,rep.lookup]
  rw [perform,read]
  rfl

theorem expiredIff {conf : Conf} {now : Clock} (rep : Represents s m e) :
    expired conf now m key = true ↔ Expired (studentTimeout conf) now.val (values (e .timers)) key := by
  simp only [expired,Expired,rep.lookup,Option.any_eq_true,decide_eq_true_eq,ge_iff_le]

theorem passLookup (conf : Conf) (now : Clock) (rep : Represents s m e) (key : Key) :
    let result := checkLoop (studentTimeout conf) now.val (values (e .timers)) (values (e .students)) s.notices
    Dict.lookup result.2.1 key = update m (.checkTimers conf now) .students key ∧
      Dict.lookup result.1 key = update m (.checkTimers conf now) .timers key := by
  by_cases old : Expired (studentTimeout conf) now.val (values (e .timers)) key
  · obtain ⟨gone,left,-⟩ := checkLoopExpired s.notices (rep.keys .timers) (rep.keys .students) old
    have removed (c : Name) : update m (.checkTimers conf now) c key = none :=
      if_pos ((expiredIff rep).mpr old)
    exact ⟨left.trans (removed _).symm,gone.trans (removed _).symm⟩
  · obtain ⟨stays,same,-⟩ := checkLoopKept s.notices (rep.keys .timers) (rep.keys .students) old
    have kept (c : Name) : Dict.lookup (values (e c)) key = update m (.checkTimers conf now) c key :=
      (rep.lookup c key).trans (if_neg (mt (expiredIff rep).mp old)).symm
    exact ⟨same.trans (kept _),stays.trans (kept _)⟩

theorem passPerforms (conf : Conf) (now : Clock) (rep : Represents s m e) (enough : ∀ d, (e d).length < limit) :
    ∃ s' e', perform limit s (.checkTimers conf now) = some (s',.visited (addresses (e .timers))) ∧
      Represents s' (update m (.checkTimers conf now)) e' ∧ (∀ c, (e' c).length ≤ (e c).length) ∧
      e' .timers = young (studentTimeout conf) now.val (e .timers) := by
  have disjoint := rep.lists.apart .students .timers (by decide)
  have apart := List.nodup_append'.mpr ⟨rep.lists.distinct .students,rep.lists.distinct .timers,disjoint⟩
  obtain ⟨h',ss,looped,contents,within,students,timers,frame⟩ := timersRuns
    (studentTimeout conf) now.val s.notices (rep.lists.behind .students) (rep.lists.behind .timers) apart
    (enough .students) (enough .timers)
  let e' : Entries := fun
    | .students => ss
    | .timers => young (studentTimeout conf) now.val (e .timers)
  have kept : (addresses (e' .timers)).Sublist (addresses (e .timers)) := List.filter_sublist.map Prod.fst
  have within (c : Name) : (s.dict c :: addresses (e' c)).Sublist (s.dict c :: addresses (e c)) := by
    cases c with
    | students => exact within.cons_cons _
    | timers => exact kept.cons_cons _
  have distinctAfter := checkLoopDistinct (studentTimeout conf) now.val s.notices (rep.keys .timers)
    (rep.keys .students)
  let result := checkLoop (studentTimeout conf) now.val (values (e .timers)) (values (e .students)) s.notices
  refine ⟨{s with heap := h', notices := result.2.2},e',?_,⟨⟨?_,?_,?_⟩,?_,?_⟩,?_,rfl⟩
  · rw [perform,DictHeap.checkTimers]
    have head : s.heap s.timers = _ := behindHead (rep.lists.behind .timers)
    simp only [head,Option.bind_eq_bind,Option.bind_some]
    exact congrArg (Option.map _) looped
  · intro c
    cases c with
    | students => exact students
    | timers => exact timers
  · exact fun c => (rep.lists.distinct c).sublist (within c)
  · exact fun c d differs q mem inside =>
      rep.lists.apart c d differs ((within c).subset mem) ((within d).subset inside)
  · intro c
    cases c with
    | students => exact contents ▸ distinctAfter.2
    | timers => exact valuesYoung _ _ _ (values (e .students)) s.notices ▸ distinctAfter.1
  · intro c key
    obtain ⟨inStudents,inTimers⟩ := passLookup conf now rep key
    cases c with
    | students => exact contents ▸ inStudents
    | timers => exact valuesYoung _ _ _ (values (e .students)) s.notices ▸ inTimers
  · intro c
    have lengths := (within c).length_le
    simpa [addresses] using lengths

theorem stepRepresents {a : Act} {s' : State} (rep : Represents s m e) (enough : ∀ d, (e d).length < limit)
    (moved : step limit s a = some s') :
    ∃ e', Represents s' (update m a) e' ∧ ∀ c, (e' c).length ≤ (e c).length + 1 := by
  obtain ⟨⟨after,outcome⟩,performed,rfl⟩ := Option.map_eq_some_iff.mp moved
  have next {t : State} {o : Outcome} (other : perform limit s a = some (t,o)) : t = after :=
    congrArg Prod.fst (Option.some.inj (other.symm.trans performed))
  cases a with
  | set d key value fresh =>
    obtain ⟨h',written,-⟩ := Option.map_eq_some_iff.mp performed
    have free := setFree (rep.lists.behind d) (rep.lists.distinct d) (enough d) written
    obtain ⟨t,e',other,rep',grown⟩ := setPerforms key value rep (enough d) free
    exact ⟨e',next other ▸ rep',grown⟩
  | get d key => exact ⟨e,next (getPerforms rep (enough d)) ▸ rep,fun c => Nat.le_succ _⟩
  | del d key =>
    obtain ⟨t,entries,other,rep',shorter,-⟩ := delPerforms key rep (enough d)
    refine ⟨put e d entries,next other ▸ rep',fun c => ?_⟩
    rw [put]
    split
    · rename_i same
      rw [same]
      exact Nat.le_succ_of_le shorter
    · exact Nat.le_succ _
  | checkTimers conf now =>
    obtain ⟨t,e',other,rep',shorter,-⟩ := passPerforms conf now rep enough
    exact ⟨e',next other ▸ rep',fun c => Nat.le_succ_of_le (shorter c)⟩

theorem runRepresents {acts : List Act} {s' : State} {n : Nat} (rep : Represents s m e)
    (small : ∀ d, (e d).length ≤ n) (enough : n + acts.length < limit)
    (run : Runs.exec (step limit) s acts = some s') :
    ∃ e', Represents s' (acts.foldl update m) e' ∧ ∀ d, (e' d).length < limit := by
  induction acts generalizing s m e n with
  | nil =>
    cases Option.some.inj run
    exact ⟨e,rep,fun d => Nat.lt_of_le_of_lt (small d) enough⟩
  | cons a rest ih =>
    obtain ⟨t,moved,later⟩ := Runs.execCons run
    rw [List.length_cons] at enough
    obtain ⟨e',rep',grown⟩ := stepRepresents rep (fun d => by have bound := small d; omega) moved
    refine ih (n := n + 1) rep' (fun d => ?_) (by omega) later
    have bound := small d
    have more := grown d
    omega

end

def noEntries : Entries := fun _ => []

def noMaps : Maps := fun _ _ => none

theorem startRepresents {first second : Nat} {s : State} (started : start first second = some s) :
    Represents s noMaps noEntries := by
  have shape : first ≠ second ∧ s = ⟨(Heap.put (fun _ => none) first (some ⟨sentinel,none⟩)).put second
      (some ⟨sentinel,none⟩),first,second,[]⟩ := by
    by_cases same : second = first
    · simp [start,newDict,malloc,Heap.put,same] at started
    · refine ⟨Ne.symm same,?_⟩
      simpa [start,newDict,malloc,Heap.put,same,eq_comm] using started
  obtain ⟨differs,rfl⟩ := shape
  refine ⟨⟨fun d => ?_,fun d => List.nodup_singleton _,fun c d other => ?_⟩,fun _ => List.nodup_nil,fun _ _ => rfl⟩
  · cases d with
    | students => exact (putOther _ _ differs).trans (putSame _ _ _)
    | timers => exact putSame _ _ _
  · refine List.disjoint_singleton.mpr fun mem => ?_
    have same := List.mem_singleton.mp mem
    cases c <;> cases d
    · exact other rfl
    · exact differs same.symm
    · exact differs same
    · exact other rfl

theorem representsFinite {limit : Nat} {s : State} {m : Maps} {e : Entries} (rep : Represents s m e)
    (enough : ∀ d, (e d).length < limit) : FiniteMaps limit s m e := by
  refine ⟨rep.lists,rep.keys,fun d _ => getPerforms rep (enough d),fun d key value fresh free => ?_,
    fun d key => ?_,fun conf now => ?_⟩
  · obtain ⟨s',-,performed,-⟩ := setPerforms key value rep (enough d) (fun _ => free)
    exact ⟨s',performed⟩
  · obtain ⟨s',entries,performed,rep',-,contents⟩ := delPerforms key rep (enough d)
    refine ⟨s',put e d entries,performed,rep'.lists,?_,fun c other => if_neg other⟩
    rw [put,if_pos rfl,contents]
  · obtain ⟨s',e',performed,rep',-,young⟩ := passPerforms conf now rep enough
    exact ⟨s',e',performed,rep'.lists,young⟩

/-- After any calls on the two new dictionaries, with loops that may go round once for each
call, every further call does what it does on the finite maps. -/
theorem dictionariesAreMaps (limit first second : Nat) (initial s : State) (acts : List Act)
    (started : start first second = some initial) (enough : acts.length < limit)
    (run : Runs.exec (step limit) initial acts = some s) :
    ∃ e, FiniteMaps limit s (acts.foldl update noMaps) e := by
  obtain ⟨e,rep,bounds⟩ := runRepresents (startRepresents started) (fun _ => Nat.le_refl 0)
    (by omega) run
  exact ⟨e,representsFinite rep bounds⟩

def seconds (n : Fin 60) : Clock := ⟨n.val,by omega⟩

def sample : List Act := [
  .set .timers (ascii "a") (seconds 5) 3,
  .set .timers (ascii "b") (seconds 9) 4,
  .checkTimers [(ascii "student.timeout",ascii "4")] (seconds 10)]

theorem dictionariesAreMapsSample : ∃ initial s e, start 1 2 = some initial ∧
    Runs.exec (step 4) initial sample = some s ∧ FiniteMaps 4 s (sample.foldl update noMaps) e := by
  have started : (start 1 2).isSome = true := rfl
  have run : (Runs.exec (step 4) ((start 1 2).get started) sample).isSome = true := rfl
  obtain ⟨e,maps⟩ := dictionariesAreMaps 4 1 2 ((start 1 2).get started)
    ((Runs.exec (step 4) ((start 1 2).get started) sample).get run) sample
    (Option.some_get started).symm (by decide) (Option.some_get run).symm
  exact ⟨_,_,e,(Option.some_get started).symm,(Option.some_get run).symm,maps⟩

end RfidStation.DictRuns
