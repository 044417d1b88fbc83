import RfidStation.Merger
import RfidStation.Lib.Linked
import RfidStation.Lib.Runs

/-! dict.c on its nodes, and the loop of check_timers (timeout.c) that unlinks them. `none` is a
bad access, or a loop that has used up `limit`. -/
namespace RfidStation.DictHeap
open Cstr Config Linked Merger Student

/- The fields of a dict_item beside `next`; the sentinel's key is NULL. -/
structure Content where
  key : Option Key
  value : Int
  deriving DecidableEq, Repr

abbrev Memory := Heap Content

def store (item : Key × Int) : Content := ⟨some item.1,item.2⟩

def sentinel : Content := ⟨none,0⟩

def sameKey (item : Content) (key : Key) : Option Bool := item.key.map (fun k => k = key)

-- safe_malloc gives a cell that is not in use.
def malloc (h : Memory) (fresh : Nat) (node : Node Content) : Option Memory :=
  if h fresh = none then some (h.put fresh (some node)) else none

def newDict (h : Memory) (fresh : Nat) : Option Memory := malloc h fresh ⟨sentinel,none⟩

def getLoop : Nat → Memory → Option Nat → Key → Option Int
  | 0, _, _, _ => none
  | _ + 1, _, none, _ => some 0
  | limit + 1, h, some curr, key => do
    let node ← h curr
    if ← sameKey node.item key then some node.item.value else getLoop limit h node.next key

def get (limit : Nat) (h : Memory) (d : Nat) (key : Key) : Option Int := do
  let node ← h d
  getLoop limit h node.next key

-- The inner `none` is a key that was not found.
def setLoop : Nat → Memory → Option Nat → Key → Int → Option (Option Memory)
  | 0, _, _, _, _ => none
  | _ + 1, _, none, _, _ => some none
  | limit + 1, h, some curr, key, value => do
    let node ← h curr
    if ← sameKey node.item key then some (some (h.put curr (some ⟨⟨node.item.key,value⟩,node.next⟩)))
    else setLoop limit h node.next key value

def set (limit : Nat) (h : Memory) (d : Nat) (key : Key) (value : Int) (fresh : Nat) : Option Memory := do
  let node ← h d
  match ← setLoop limit h node.next key value with
  | some done => some done
  | none =>
    let made ← malloc h fresh ⟨⟨some key,value⟩,node.next⟩
    some (made.put d (some ⟨node.item,some fresh⟩))

def remove (h : Memory) (curr : Nat) : Option Memory := do
  let node ← h curr
  let tobefree ← node.next
  let freed ← h tobefree
  some ((h.put curr (some ⟨node.item,freed.next⟩)).put tobefree none)

def del : Nat → Memory → Nat → Key → Option (Memory × Bool)
  | 0, _, _, _ => none
  | limit + 1, h, curr, key => do
    let node ← h curr
    match node.next with
    | none => some (h,false)
    | some next =>
      let behind ← h next
      if ← sameKey behind.item key then some (← remove h curr,true) else del limit h next key

structure Pass where
  heap : Memory
  notices : List Notice
  visited : List Nat

def notify (state : Int) (studentId : Key) : List Notice :=
  (verdict (ofInt state)).toList.map (fun action => (studentId,action))

/- The loop of check_timers with its two pointers; `timer` is a node that is still to come. -/
def timersLoop (limit : Nat) (timeout curr : Int) (students : Nat) :
    Nat → Memory → Nat → Option Nat → List Notice → Option Pass
  | 0, _, _, _, _ => none
  | _ + 1, h, _, none, notices => some ⟨h,notices,[]⟩
  | fuel + 1, h, prevTimer, some timer, notices => do
    let node ← h timer
    if curr - node.item.value ≥ timeout then
      let studentId ← node.item.key
      let state ← get limit h students studentId
      let (h,_) ← del limit h students studentId
      let next ← (h timer).map Node.next
      let h ← remove h prevTimer
      let pass ← timersLoop limit timeout curr students fuel h prevTimer next
        (notices ++ notify state studentId)
      some {pass with visited := timer :: pass.visited}
    else
      let pass ← timersLoop limit timeout curr students fuel h timer node.next notices
      some {pass with visited := timer :: pass.visited}

def checkTimers (limit : Nat) (conf : Conf) (h : Memory) (students timers : Nat) (curr : Clock)
    (notices : List Notice) : Option Pass := do
  let node ← h timers
  timersLoop limit (studentTimeout conf) curr.val students limit h timers node.next notices

section
variable {limit : Nat} {h : Memory} {d : Nat} {x : Content} {entries : List (Nat × (Key × Int))} {key : Key}

theorem getRuns (behind : Behind store h d x entries) (enough : entries.length < limit) :
    getLoop limit h (first entries) key = some (Dict.get 0 (values entries) key) := by
  induction entries generalizing d x limit with
  | nil =>
    obtain ⟨limit,rfl⟩ := Nat.exists_eq_add_one.mpr enough
    rfl
  | cons entry rest ih =>
    obtain ⟨a,k,v⟩ := entry
    obtain ⟨limit,rfl⟩ := Nat.exists_eq_add_one.mpr (Nat.zero_lt_of_lt enough)
    have here := behindHead behind.2
    have later := ih behind.2 (Nat.lt_of_succ_lt_succ enough)
    rw [Dict.get] at later ⊢
    by_cases same : k = key
    · simp [getLoop,first,here,sameKey,store,same,values,Dict.lookup]
    · simp only [first,List.head?_cons,Option.map_some,getLoop,here,Option.bind_eq_bind,Option.bind_some,
        sameKey,store,same,decide_false,Bool.false_eq_true,if_false,values,List.map_cons,Dict.lookup]
      exact later

structure Leaves (h h' : Memory) (d : Nat) (x : Content) (entries entries' : List (Nat × (Key × Int))) :
    Prop where
  behind : Behind store h' d x entries'
  within : (addresses entries').Sublist (addresses entries)
  frame : Frame (d :: addresses entries) h h'

theorem leavesCons {h' : Memory} {a : Nat} {item : Key × Int} {rest rest' : List (Nat × (Key × Int))}
    (behind : Behind store h d x ((a,item) :: rest)) (distinct : (d :: a :: addresses rest).Nodup)
    (leaves : Leaves h h' a (store item) rest rest') :
    Leaves h h' d x ((a,item) :: rest) ((a,item) :: rest') := by
  have outside := leaves.frame d (List.nodup_cons.mp distinct).1
  refine ⟨⟨outside.trans behind.1,leaves.behind⟩,leaves.within.cons_cons a,?_⟩
  exact frameWiden leaves.frame (List.subset_cons_self _ _)

theorem setLoopRuns (key : Key) (value : Int) (behind : Behind store h d x entries)
    (distinct : (d :: addresses entries).Nodup) (enough : entries.length < limit) :
    match Dict.overwrite (values entries) key value with
    | none => setLoop limit h (first entries) key value = some none
    | some out => ∃ h' entries', setLoop limit h (first entries) key value = some (some h') ∧
        values entries' = out ∧ Leaves h h' d x entries entries' := by
  induction entries generalizing d x limit with
  | nil =>
    obtain ⟨limit,rfl⟩ := Nat.exists_eq_add_one.mpr enough
    rfl
  | cons entry rest ih =>
    obtain ⟨a,k,v⟩ := entry
    obtain ⟨limit,rfl⟩ := Nat.exists_eq_add_one.mpr (Nat.zero_lt_of_lt enough)
    have here := behindHead behind.2
    have later := ih behind.2 (List.nodup_cons.mp distinct).2 (Nat.lt_of_succ_lt_succ enough)
    by_cases same : k = key
    · have stepped : setLoop (limit + 1) h (some a) key value =
          some (some (h.put a (some ⟨store (k,value),first rest⟩))) := by
        simp [setLoop,here,sameKey,store,same]
      simp only [values,List.map_cons,Dict.overwrite,same,if_true]
      refine ⟨_,(a,(k,value)) :: rest,stepped,by rw [same]; rfl,?_⟩
      refine ⟨replaceBehind behind distinct,List.Sublist.refl _,putFrame h _ ?_⟩
      exact List.mem_cons_of_mem d List.mem_cons_self
    · have stepped : setLoop (limit + 1) h (some a) key value = setLoop limit h (first rest) key value := by
        simp [setLoop,here,sameKey,store,same]
      simp only [values,List.map_cons,Dict.overwrite,same,if_false] at later ⊢
      cases written : Dict.overwrite (rest.map Prod.snd) key value with
      | none =>
        rw [written] at later
        exact stepped.trans later
      | some out =>
        rw [written] at later
        obtain ⟨h',rest',done,contents,leaves⟩ := later
        exact ⟨h',(a,(k,v)) :: rest',stepped.trans done,congrArg ((k,v) :: ·) contents,
          leavesCons behind distinct leaves⟩

theorem removeRuns {a : Nat} {item : Key × Int} (behind : Behind store h d x ((a,item) :: entries))
    (distinct : (d :: a :: addresses entries).Nodup) :
    ∃ h', remove h d = some h' ∧ Leaves h h' d x ((a,item) :: entries) entries := by
  have here := behind.1
  have next := behindHead behind.2
  refine ⟨(h.put d (some ⟨x,first entries⟩)).put a none,?_,?_⟩
  · simp only [remove,here,next,Option.bind_eq_bind,Option.bind_some]
  · refine ⟨unlinkBehind behind distinct,List.sublist_cons_self _ _,?_⟩
    exact frameTrans (putFrame h _ List.mem_cons_self) (putFrame _ _ (List.mem_cons_of_mem d List.mem_cons_self))

theorem delRuns (key : Key) (behind : Behind store h d x entries) (distinct : (d :: addresses entries).Nodup)
    (enough : entries.length < limit) :
    ∃ h' entries', del limit h d key = some (h',(Dict.del (values entries) key).2) ∧
      values entries' = (Dict.del (values entries) key).1 ∧ Leaves h h' d x entries entries' := by
  induction entries generalizing d x limit with
  | nil =>
    obtain ⟨limit,rfl⟩ := Nat.exists_eq_add_one.mpr enough
    have here : h d = some ⟨x,none⟩ := behind
    refine ⟨h,[],?_,rfl,behind,List.Sublist.refl _,fun _ _ => rfl⟩
    simp only [del,here,Option.bind_eq_bind,Option.bind_some]
    rfl
  | cons entry rest ih =>
    obtain ⟨a,k,v⟩ := entry
    obtain ⟨limit,rfl⟩ := Nat.exists_eq_add_one.mpr (Nat.zero_lt_of_lt enough)
    have here := behind.1
    have next := behindHead behind.2
    by_cases same : k = key
    · obtain ⟨h',removed,leaves⟩ := removeRuns behind distinct
      refine ⟨h',rest,?_,by simp [values,Dict.del,same],leaves⟩
      simp [del,here,next,sameKey,store,same,removed,values,Dict.del]
    · obtain ⟨h',rest',done,contents,leaves⟩ :=
        ih behind.2 (List.nodup_cons.mp distinct).2 (Nat.lt_of_succ_lt_succ enough)
      refine ⟨h',(a,(k,v)) :: rest',?_,?_,leavesCons behind distinct leaves⟩
      · simp only [values,List.map_cons,Dict.del,same,if_false] at done ⊢
        simp [del,here,next,sameKey,store,same,done]
      · simp only [values,List.map_cons,Dict.del,same,if_false] at contents ⊢
        rw [contents]

theorem setFree {value : Int} {fresh : Nat} {h' : Memory} (behind : Behind store h d x entries)
    (distinct : (d :: addresses entries).Nodup) (enough : entries.length < limit)
    (done : set limit h d key value fresh = some h')
    (absent : Dict.overwrite (values entries) key value = none) : h fresh = none := by
  have here := behindHead behind
  have loop := setLoopRuns key value behind distinct enough
  rw [absent] at loop
  by_contra used
  simp only [set,here,loop,malloc,used,if_false,Option.bind_eq_bind,Option.bind_some,Option.bind_none] at done
  cases done

theorem setRuns {value : Int} {fresh : Nat} (behind : Behind store h d x entries)
    (distinct : (d :: addresses entries).Nodup) (enough : entries.length < limit)
    (free : Dict.overwrite (values entries) key value = none → h fresh = none) :
    ∃ h' entries' extra, set limit h d key value fresh = some h' ∧
      values entries' = Dict.set (values entries) key value ∧ Behind store h' d x entries' ∧
      extra.length ≤ 1 ∧ (∀ q ∈ extra, h q = none) ∧
      (addresses entries').Sublist (extra ++ addresses entries) ∧
      Frame (d :: (extra ++ addresses entries)) h h' := by
  have here := behindHead behind
  have loop := setLoopRuns key value behind distinct enough
  rw [Dict.set]
  cases written : Dict.overwrite (values entries) key value with
  | none =>
    rw [written] at loop
    have free := free written
    have new : fresh ∉ d :: addresses entries := fun mem => behindUsed behind fresh mem free
    refine ⟨_,(fresh,(key,value)) :: entries,[fresh],?_,rfl,insertBehind behind distinct new,
      Nat.le_refl 1,fun q mem => (List.mem_singleton.mp mem) ▸ free,List.Sublist.refl _,?_⟩
    · simp only [set,here,loop,malloc,free,if_true,Option.bind_eq_bind,Option.bind_some]
      rfl
    · exact frameTrans (putFrame h _ (List.mem_cons_of_mem d List.mem_cons_self)) (putFrame _ _ List.mem_cons_self)
  | some out =>
    rw [written] at loop
    obtain ⟨h',entries',done,contents,leaves⟩ := loop
    refine ⟨h',entries',[],?_,contents,leaves.behind,Nat.zero_le 1,nofun,leaves.within,leaves.frame⟩
    simp only [set,here,done,Option.bind_eq_bind,Option.bind_some]

end

def visiting (timer : Nat) (pass : Pass) : Pass := {pass with visited := timer :: pass.visited}

def young (timeout curr : Int) (timers : List (Nat × (Key × Int))) : List (Nat × (Key × Int)) :=
  timers.filter (fun timer => curr - timer.2.2 < timeout)

section
variable {limit fuel : Nat} {timeout curr : Int} {s prev a : Nat} {h : Memory} {x : Content} {key : Key}
  {value : Int} {next : Option Nat} {ss ts rest : List (Nat × (Key × Int))} {notices : List Notice}

theorem timersLoopKept (here : h a = some ⟨store (key,value),next⟩) (kept : ¬ curr - value ≥ timeout) :
    timersLoop limit timeout curr s (fuel + 1) h prev (some a) notices =
      (timersLoop limit timeout curr s fuel h a next notices).map (visiting a) := by
  simp only [timersLoop,here,store,kept,if_false,Option.bind_eq_bind,Option.bind_some,Option.map_eq_bind]
  rfl

theorem timersLoopExpired {h' h'' : Memory} {state : Int} {done : Bool}
    (here : h a = some ⟨store (key,value),next⟩) (expired : curr - value ≥ timeout)
    (read : get limit h s key = some state) (deleted : del limit h s key = some (h',done))
    (same : h' a = h a) (removed : remove h' prev = some h'') :
    timersLoop limit timeout curr s (fuel + 1) h prev (some a) notices =
      (timersLoop limit timeout curr s fuel h'' prev next (notices ++ notify state key)).map (visiting a) := by
  rw [here] at same
  simp only [timersLoop,here,store,expired,if_true,read,deleted,same,removed,Option.bind_eq_bind,
    Option.bind_some,Option.map_eq_bind]
  rfl

theorem youngCons {item : Key × Int} : young timeout curr ((a,item) :: rest) =
    if curr - item.2 < timeout then (a,item) :: young timeout curr rest else young timeout curr rest := by
  by_cases kept : curr - item.2 < timeout <;> simp [young,kept]

theorem valuesYoung (timeout curr : Int) (ts : List (Nat × (Key × Int))) (students : Dict Int) (notices : List Notice) :
    values (young timeout curr ts) = (checkLoop timeout curr (values ts) students notices).1 := by
  rw [checkLoopTimers,values,values,young,List.filter_map]
  rfl

theorem expiredRuns (students : Behind store h s sentinel ss) (timers : Behind store h prev x ((a,(key,value)) :: rest))
    (apart : ((s :: addresses ss) ++ (prev :: a :: addresses rest)).Nodup) (enough : ss.length < limit)
    (expired : curr - value ≥ timeout) :
    ∃ h' ss', (∀ fuel notices, timersLoop limit timeout curr s (fuel + 1) h prev (some a) notices =
        (timersLoop limit timeout curr s fuel h' prev (first rest)
          (notices ++ expiryNotices (values ss) key)).map (visiting a)) ∧
      values ss' = (Dict.del (values ss) key).1 ∧ (addresses ss').Sublist (addresses ss) ∧
      Behind store h' s sentinel ss' ∧ Behind store h' prev x rest ∧
      Frame ((s :: addresses ss) ++ (prev :: a :: addresses rest)) h h' := by
  obtain ⟨left,right,disjoint⟩ := List.nodup_append'.mp apart
  have here := behindHead timers.2
  have read : get limit h s key = some (Dict.get 0 (values ss) key) := by
    rw [get,behindHead students]
    exact getRuns students enough
  obtain ⟨h1,ss',deleted,contents,leaves1⟩ := delRuns key students left enough
  have timers1 := behindFrame timers leaves1.frame (fun q mem inside => disjoint inside mem)
  have same : h1 a = h a := here ▸ behindHead timers1.2
  obtain ⟨h2,removed,leaves2⟩ := removeRuns timers1 right
  have within := leaves1.within.cons_cons s
  have students2 := behindFrame leaves1.behind leaves2.frame (fun q mem => disjoint (within.subset mem))
  refine ⟨h2,ss',fun fuel notices => timersLoopExpired here expired read deleted same removed,contents,
    leaves1.within,students2,leaves2.behind,?_⟩
  exact frameTrans (frameWiden leaves1.frame (List.subset_append_left _ _))
    (frameWiden leaves2.frame (List.subset_append_right _ _))

theorem timersRuns (timeout curr : Int) (notices : List Notice) (students : Behind store h s sentinel ss) (timers : Behind store h prev x ts)
    (apart : ((s :: addresses ss) ++ (prev :: addresses ts)).Nodup) (enough : ss.length < limit)
    (fuelled : ts.length < fuel) :
    let result := checkLoop timeout curr (values ts) (values ss) notices
    ∃ h' ss', timersLoop limit timeout curr s fuel h prev (first ts) notices =
        some ⟨h',result.2.2,addresses ts⟩ ∧
      values ss' = result.2.1 ∧ (addresses ss').Sublist (addresses ss) ∧
      Behind store h' s sentinel ss' ∧ Behind store h' prev x (young timeout curr ts) ∧
      Frame ((s :: addresses ss) ++ (prev :: addresses ts)) h h' := by
  induction ts generalizing h prev x ss notices fuel with
  | nil =>
    obtain ⟨fuel,rfl⟩ := Nat.exists_eq_add_one.mpr fuelled
    exact ⟨h,ss,rfl,rfl,List.Sublist.refl _,students,timers,fun _ _ => rfl⟩
  | cons entry rest ih =>
    obtain ⟨a,k,v⟩ := entry
    obtain ⟨fuel,rfl⟩ := Nat.exists_eq_add_one.mpr (Nat.zero_lt_of_lt fuelled)
    have fuelled := Nat.lt_of_succ_lt_succ fuelled
    by_cases expired : curr - v ≥ timeout
    · obtain ⟨h1,ss1,turn,contents,within,students1,timers1,frame⟩ :=
        expiredRuns students timers apart enough expired
      have smaller : ((s :: addresses ss1) ++ (prev :: addresses rest)).Sublist
          ((s :: addresses ss) ++ (prev :: addresses ((a,k,v) :: rest))) :=
        (within.cons_cons s).append ((List.sublist_cons_self a _).cons_cons prev)
      have shorter : ss1.length ≤ ss.length := by
        have lengths := within.length_le
        simpa [addresses] using lengths
      obtain ⟨h',ss',looped,contents',within',students',timers',frame'⟩ :=
        ih (notices ++ expiryNotices (values ss) k) students1 timers1
          (apart.sublist smaller) (Nat.lt_of_le_of_lt shorter enough) fuelled
      have result : checkLoop timeout curr (values ((a,k,v) :: rest)) (values ss) notices =
          checkLoop timeout curr (values rest) (values ss1) (notices ++ expiryNotices (values ss) k) := by
        rw [values,List.map_cons,checkLoop,if_pos expired,contents]
        rfl
      rw [result]
      refine ⟨h',ss',?_,contents',within'.trans within,students',?_,?_⟩
      · exact (turn fuel notices).trans (congrArg (Option.map (visiting a)) looped)
      · rw [youngCons,if_neg (Int.not_lt.mpr expired)]
        exact timers'
      · exact frameTrans frame (frameWiden frame' smaller.subset)
    · have smaller : ((s :: addresses ss) ++ (a :: addresses rest)).Sublist
          ((s :: addresses ss) ++ (prev :: addresses ((a,k,v) :: rest))) :=
        (List.sublist_cons_self prev _).append_left _
      obtain ⟨h',ss',looped,contents',within',students',timers',frame'⟩ :=
        ih notices students timers.2 (apart.sublist smaller) enough fuelled
      obtain ⟨-,right,disjoint⟩ := List.nodup_append'.mp apart
      have outside : prev ∉ (s :: addresses ss) ++ (a :: addresses rest) := by
        intro mem
        rcases List.mem_append.mp mem with inside | later
        · exact disjoint inside List.mem_cons_self
        · exact (List.nodup_cons.mp right).1 later
      have result : checkLoop timeout curr (values ((a,k,v) :: rest)) (values ss) notices =
          ((k,v) :: (checkLoop timeout curr (values rest) (values ss) notices).1,
            (checkLoop timeout curr (values rest) (values ss) notices).2) := by
        rw [values,List.map_cons,checkLoop,if_neg expired]
        rfl
      rw [result]
      refine ⟨h',ss',?_,contents',within',students',?_,frameWiden frame' smaller.subset⟩
      · exact (timersLoopKept (behindHead timers.2) expired).trans (congrArg (Option.map (visiting a)) looped)
      · rw [youngCons,if_pos (Int.not_le.mp expired)]
        exact ⟨(frame' prev outside).trans timers.1,timers'⟩

end

end RfidStation.DictHeap
