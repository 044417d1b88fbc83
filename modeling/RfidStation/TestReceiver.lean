import RfidStation.Config
import Mathlib.Data.List.Destutter
import Mathlib.Data.List.Nodup
import Mathlib.Logic.Function.Basic

/-! The alarms of the test receiver (test_multiple in receive/test.c): which of the numbered
transmitters miss a whole interval, and the text messages about them. `closed` and `current` are
history: the numbers received in the intervals that are over and in this one. -/
namespace RfidStation.TestReceiver
open Cstr Config
open Function (update update_self update_of_ne)

/- A message is the number and whether it misses or is OK again. -/
structure State where
  total : UInt8 → Nat
  counter : UInt8 → Nat
  died : UInt8 → Bool
  smsCount : UInt8 → Int
  errorFlag : Bool
  led2 : Bool
  lastTime : Int
  messages : List (UInt8 × Bool)
  closed : List (List UInt8)
  current : List UInt8

def initial : State :=
  ⟨fun _ => 0,fun _ => 0,fun _ => false,fun _ => 0,false,false,0,[],[],[]⟩

def maxnumPerRfid (conf : Conf) : Int := getInt conf "sms.maxnum_per_rfid"

def valid (buf : Bytes) : Bool :=
  (List.range (buf.length - 1)).all (fun i => (buf[i]?.map UInt8.toNat) == some (i + 1))

variable (conf : Conf) (smsActive : Bool)

-- The two branches differ in the sense of `died` and in the text.
def alarm (s : State) (i : UInt8) (miss : Bool) : State :=
  let s := if smsActive ∧ s.died i ≠ miss then {s with
      smsCount := update s.smsCount i (s.smsCount i + 1)
      messages := s.messages ++ if s.smsCount i < maxnumPerRfid conf then [(i,miss)] else []} else s
  {s with died := update s.died i miss}

def visit (s : State) (i : UInt8) : State :=
  let s := if s.total i = 0 then s
    else if s.counter i = 0 then {alarm conf smsActive s i true with errorFlag := true}
    else alarm conf smsActive s i false
  {s with counter := update s.counter i 0}

def numbers : List UInt8 := (List.range 256).map UInt8.ofNat

def closeInterval (s : State) (currTime : Int) : State :=
  let s := numbers.foldl (visit conf smsActive) {s with errorFlag := false}
  {s with led2 := s.errorFlag, lastTime := currTime, closed := s.closed ++ [s.current], current := []}

def testMultiple (s : State) (buf : Bytes) (currTime : Int) : State :=
  if valid buf then
    let no := buf.getLastD 0
    let s := {s with
      total := update s.total no (s.total no + 1)
      counter := update s.counter no (s.counter no + 1)
      current := s.current ++ [no]}
    if currTime - s.lastTime > getInt conf "test.multiple_send_interval" then
      closeInterval conf smsActive s currTime else s
  else s

def run (packets : List (Bytes × Int)) : State :=
  packets.foldl (fun s packet => testMultiple conf smsActive s packet.1 packet.2) initial

structure View where
  total : Nat
  counter : Nat
  died : Bool
  smsCount : Int
  messages : List Bool

def messagesOf (s : State) (i : UInt8) : List Bool :=
  (s.messages.filter (fun m => m.1 = i)).map Prod.snd

def view (i : UInt8) (s : State) : View := ⟨s.total i,s.counter i,s.died i,s.smsCount i,messagesOf s i⟩

def View.alarm (v : View) (miss : Bool) : View :=
  let v := if smsActive ∧ v.died ≠ miss then {v with
      smsCount := v.smsCount + 1
      messages := v.messages ++ if v.smsCount < maxnumPerRfid conf then [miss] else []} else v
  {v with died := miss}

def View.visit (v : View) : View :=
  let v := if v.total = 0 then v else v.alarm conf smsActive (v.counter = 0)
  {v with counter := 0}

variable {conf smsActive} {s : State} {i j : UInt8}

theorem viewAlarm (s : State) (i : UInt8) (miss : Bool) :
    view i (alarm conf smsActive s i miss) = (view i s).alarm conf smsActive miss := by
  have same : (view i s).died = s.died i := rfl
  by_cases changes : smsActive ∧ s.died i ≠ miss
  · rw [alarm,View.alarm,same,if_pos changes,if_pos changes]
    by_cases room : s.smsCount i < maxnumPerRfid conf <;> simp [view,messagesOf,room]
  · rw [alarm,View.alarm,same,if_neg changes,if_neg changes]
    simp [view,messagesOf]

theorem viewAlarmOther (s : State) (other : j ≠ i) (miss : Bool) :
    view i (alarm conf smsActive s j miss) = view i s := by
  unfold alarm
  split
  · simp only [view,messagesOf,update_of_ne other.symm,List.filter_append]
    split <;> simp [other]
  · simp only [view,messagesOf,update_of_ne other.symm]

theorem viewVisit (s : State) (i : UInt8) :
    view i (visit conf smsActive s i) = (view i s).visit conf smsActive := by
  have total : (view i s).total = s.total i := rfl
  have counter : (view i s).counter = s.counter i := rfl
  have cleared (t : State) : view i {t with counter := update t.counter i 0} = {view i t with counter := 0} := by
    simp [view,messagesOf]
  rw [visit,View.visit,cleared,total,counter]
  split
  · rfl
  · rw [← viewAlarm]
    split
    · rename_i none_counted
      rw [decide_eq_true none_counted]
      rfl
    · rename_i some_counted
      rw [decide_eq_false some_counted]

theorem viewVisitOther (s : State) (other : j ≠ i) : view i (visit conf smsActive s j) = view i s := by
  have cleared (t : State) : view i {t with counter := update t.counter j 0} = view i t := by
    simp [view,messagesOf,update_of_ne other.symm]
  rw [visit,cleared]
  split
  · rfl
  · split
    · exact viewAlarmOther s other true
    · exact viewAlarmOther s other false

theorem foldOnce {σ τ ι : Type} {f : σ → ι → σ} (see : σ → τ) {g : τ → τ} {i : ι}
    (own : ∀ s, see (f s i) = g (see s)) (others : ∀ s j, j ≠ i → see (f s j) = see s) {l : List ι}
    (distinct : l.Nodup) (mem : i ∈ l) (s : σ) : see (l.foldl f s) = g (see s) := by
  have skip (l : List ι) (absent : i ∉ l) (s : σ) : see (l.foldl f s) = see s := by
    induction l generalizing s with
    | nil => rfl
    | cons j rest ih =>
      rw [List.foldl_cons,ih (fun mem => absent (List.mem_cons_of_mem j mem))]
      exact others s j (fun same => absent (same ▸ List.mem_cons_self))
  induction l generalizing s with
  | nil => contradiction
  | cons j rest ih =>
    rw [List.nodup_cons] at distinct
    rw [List.foldl_cons]
    by_cases same : j = i
    · subst j
      rw [skip rest distinct.1,own]
    · rw [ih distinct.2 ((List.mem_cons.mp mem).resolve_left (Ne.symm same)),others s j same]

theorem numbersDistinct : numbers.Nodup := by
  refine List.nodup_range.map_on (fun a mem b mem' same => ?_)
  have := congrArg UInt8.toNat same
  rw [UInt8.toNat_ofNat',UInt8.toNat_ofNat',Nat.mod_eq_of_lt (List.mem_range.mp mem),
    Nat.mod_eq_of_lt (List.mem_range.mp mem')] at this
  exact this

theorem numbersAll (i : UInt8) : i ∈ numbers :=
  List.mem_map.mpr ⟨i.toNat,List.mem_range.mpr i.toNat_lt,UInt8.ofNat_toNat⟩

theorem viewClose (s : State) (currTime : Int) (i : UInt8) :
    view i (closeInterval conf smsActive s currTime) = (view i s).visit conf smsActive := by
  have outside (t : State) (led : Bool) (closed : List (List UInt8)) : view i {t with
      led2 := led, lastTime := currTime, closed := closed, current := []} = view i t := rfl
  rw [closeInterval,outside,foldOnce (view i) (fun s => viewVisit s i)
    (fun s j other => viewVisitOther s other) numbersDistinct (numbersAll i)]
  rfl

-- A number that has not been received yet does not miss.
def missing (i : UInt8) : Bool → List (List UInt8) → List Bool
  | _, [] => []
  | seen, interval :: rest =>
    (seen && decide (i ∉ interval)) :: missing i (seen || decide (i ∈ interval)) rest

def changes (l : List Bool) : List Bool := (l.destutter' (· ≠ ·) false).tail

theorem missingAppend (i : UInt8) (seen : Bool) (closed : List (List UInt8)) (last : List UInt8) :
    missing i seen (closed ++ [last]) = missing i seen closed ++
      [(seen || decide (i ∈ closed.flatten)) && decide (i ∉ last)] := by
  induction closed generalizing seen with
  | nil => simp [missing]
  | cons interval rest ih =>
    rw [List.cons_append,missing,missing,ih,List.cons_append,List.flatten_cons]
    simp only [List.mem_append,Bool.decide_or,Bool.or_assoc]

theorem missingAbsent {i : UInt8} {closed : List (List UInt8)} (absent : i ∉ closed.flatten) :
    (missing i false closed).getLastD false = false := by
  rcases List.eq_nil_or_concat closed with rfl | ⟨before,last,rfl⟩
  · rfl
  · rw [List.concat_eq_append,missingAppend,List.getLastD_concat]
    simp only [List.concat_eq_append,List.flatten_append,List.mem_append,not_or] at absent
    simp [absent.1]

theorem destutterAppend (a c : Bool) (l : List Bool) : (l ++ [c]).destutter' (· ≠ ·) a =
    l.destutter' (· ≠ ·) a ++ if l.getLastD a = c then [] else [c] := by
  induction l generalizing a with
  | nil => by_cases same : a = c <;> simp [List.destutter',same]
  | cons b rest ih =>
    rw [List.cons_append,List.destutter'_cons,List.destutter'_cons,List.getLastD_cons]
    split
    · rw [ih,List.cons_append]
    · rename_i stays
      rw [ih,not_not.mp stays]

theorem changesAppend (l : List Bool) (c : Bool) :
    changes (l ++ [c]) = changes l ++ if l.getLastD false = c then [] else [c] := by
  rw [changes,destutterAppend,List.tail_append_of_ne_nil (List.destutter'_ne_nil _ _),changes]

theorem destutterHead (a : Bool) (l : List Bool) :
    l.destutter' (· ≠ ·) a = a :: (l.destutter' (· ≠ ·) a).tail := by
  induction l generalizing a with
  | nil => rfl
  | cons b rest ih =>
    rw [List.destutter'_cons]
    split
    · rfl
    · exact ih a

theorem changesAlternate (l : List Bool) : (false :: changes l).IsChain (· ≠ ·) := by
  have chain := List.isChain_destutter' (· ≠ ·) l false
  rw [destutterHead] at chain
  exact chain

structure Agrees (conf : Conf) (smsActive : Bool) (v : View) (i : UInt8) (closed : List (List UInt8))
    (current : List UInt8) : Prop where
  total : v.total = (closed.flatten ++ current).count i
  counter : v.counter = current.count i
  died : v.died = (missing i false closed).getLastD false
  smsCount : v.smsCount = if smsActive then ((changes (missing i false closed)).length : Int) else 0
  messages : v.messages = if smsActive then
    (changes (missing i false closed)).take (maxnumPerRfid conf).toNat else []

variable {v : View} {closed : List (List UInt8)} {current : List UInt8}

theorem takeAppendOne {α : Type} (l : List α) (n : Nat) (c : α) :
    (l ++ [c]).take n = l.take n ++ if l.length < n then [c] else [] := by
  rw [List.take_append]
  congr 1
  split
  · exact List.take_of_length_le (by simp; omega)
  · rw [Nat.sub_eq_zero_of_le (by omega),List.take_zero]

theorem agreesVisit (agrees : Agrees conf smsActive v i closed current) :
    Agrees conf smsActive (v.visit conf smsActive) i (closed ++ [current]) [] := by
  obtain ⟨total,counter,died,smsCount,messages⟩ := agrees
  have all : (closed ++ [current]).flatten ++ [] = closed.flatten ++ current := by simp
  by_cases unseen : v.total = 0
  · have absent : i ∉ closed.flatten ∧ i ∉ current := by
      rw [unseen] at total
      simpa using List.count_eq_zero.mp total.symm
    have still : missing i false (closed ++ [current]) = missing i false closed ++ [false] := by
      rw [missingAppend]
      simp [absent.1]
    have quiet := missingAbsent absent.1
    rw [View.visit,if_pos unseen]
    constructor
    · rw [all]; exact total
    · rfl
    · rw [still,List.getLastD_concat,← quiet]; exact died
    · rw [still,changesAppend,if_pos quiet,List.append_nil]; exact smsCount
    · rw [still,changesAppend,if_pos quiet,List.append_nil]; exact messages
  · have next : missing i false (closed ++ [current]) =
        missing i false closed ++ [decide (v.counter = 0)] := by
      have seen : i ∈ closed.flatten ++ current := List.count_pos_iff.mp (by omega)
      have now : v.counter = 0 ↔ i ∉ current := by rw [counter]; exact List.count_eq_zero
      rw [missingAppend]
      by_cases here : i ∈ current
      · simp [here,now]
      · have before : i ∈ closed.flatten := (List.mem_append.mp seen).resolve_right here
        simp [here,before,now]
    have last := List.getLastD_concat (a := false) (b := decide (v.counter = 0)) (l := missing i false closed)
    have more := changesAppend (missing i false closed) (decide (v.counter = 0))
    rw [View.visit,if_neg unseen,View.alarm]
    by_cases changed : smsActive ∧ v.died ≠ decide (v.counter = 0)
    · rw [died] at changed
      rw [if_neg changed.2] at more
      have room : v.smsCount < maxnumPerRfid conf ↔
          (changes (missing i false closed)).length < (maxnumPerRfid conf).toNat := by
        rw [smsCount,if_pos changed.1]
        omega
      rw [if_pos (by rw [died]; exact changed)]
      constructor
      · rw [all]; exact total
      · rfl
      · rw [next,last]
      · rw [next,more,if_pos changed.1,List.length_append,List.length_singleton]
        simp [smsCount,changed.1]
      · rw [next,more,if_pos changed.1,takeAppendOne]
        simp only [messages,changed.1,if_true,room]
    · have same : smsActive = true → changes (missing i false (closed ++ [current])) =
          changes (missing i false closed) := by
        intro active
        rw [next,more,if_pos,List.append_nil]
        rw [← died]
        by_contra other
        exact changed ⟨active,other⟩
      rw [if_neg changed]
      constructor
      · rw [all]; exact total
      · rfl
      · rw [next,last]
      · cases active : smsActive with
        | false => simpa [active] using smsCount
        | true => simpa [active,same active] using smsCount
      · cases active : smsActive with
        | false => simpa [active] using messages
        | true => simpa [active,same active] using messages

theorem agreesReceive (agrees : Agrees conf smsActive v i closed current) (no : UInt8) :
    Agrees conf smsActive (if i = no then {v with total := v.total + 1, counter := v.counter + 1} else v) i
      closed (current ++ [no]) := by
  obtain ⟨total,counter,died,smsCount,messages⟩ := agrees
  by_cases own : i = no
  · subst no
    rw [if_pos rfl]
    refine ⟨?_,?_,died,smsCount,messages⟩
    · rw [← List.append_assoc,List.count_append,List.count_singleton_self,← total]
    · rw [List.count_append,List.count_singleton_self,← counter]
  · rw [if_neg own]
    have other : [no].count i = 0 := List.count_eq_zero.mpr (by simpa using own)
    refine ⟨?_,?_,died,smsCount,messages⟩
    · rw [← List.append_assoc,List.count_append,other,← total,Nat.add_zero]
    · rw [List.count_append,other,← counter,Nat.add_zero]

def Silent (s : State) (i : UInt8) : Prop := s.total i ≠ 0 ∧ s.counter i = 0

theorem visitFlag (s : State) (i : UInt8) :
    (visit conf smsActive s i).errorFlag = true ↔ s.errorFlag = true ∨ Silent s i := by
  have kept (miss : Bool) : (alarm conf smsActive s i miss).errorFlag = s.errorFlag := by
    unfold alarm
    split <;> rfl
  rw [visit,Silent]
  split
  · simp [*]
  · split
    · simp [*]
    · simp [*]

theorem foldFlag (l : List UInt8) (distinct : l.Nodup) (s : State) :
    (l.foldl (visit conf smsActive) s).errorFlag = true ↔ s.errorFlag = true ∨ ∃ i ∈ l, Silent s i := by
  induction l generalizing s with
  | nil => simp
  | cons j rest ih =>
    rw [List.nodup_cons] at distinct
    have later (i : UInt8) (mem : i ∈ rest) : Silent (visit conf smsActive s j) i ↔ Silent s i := by
      have other : j ≠ i := fun same => distinct.1 (same ▸ mem)
      have same : view i (visit conf smsActive s j) = view i s := viewVisitOther s other
      exact Iff.of_eq (congrArg (fun v : View => v.total ≠ 0 ∧ v.counter = 0) same)
    rw [List.foldl_cons,ih distinct.2,visitFlag,or_assoc,List.exists_mem_cons_iff]
    refine or_congr_right (or_congr_right (exists_congr fun i => and_congr_right fun mem => later i mem))

theorem closeFlag (s : State) (currTime : Int) :
    (closeInterval conf smsActive s currTime).led2 = true ↔ ∃ i, Silent s i := by
  have fold : (numbers.foldl (visit conf smsActive) {s with errorFlag := false}).errorFlag = true ↔ _ :=
    foldFlag numbers numbersDistinct {s with errorFlag := false}
  have each (i : UInt8) : Silent {s with errorFlag := false} i ↔ Silent s i := Iff.rfl
  have all : (∃ i ∈ numbers, Silent s i) ↔ ∃ i, Silent s i :=
    ⟨fun ⟨i,_,silent⟩ => ⟨i,silent⟩,fun ⟨i,silent⟩ => ⟨i,numbersAll i,silent⟩⟩
  rw [closeInterval]
  simpa only [Bool.false_eq_true,false_or,each,all] using fold

theorem visitDied (agrees : Agrees conf smsActive (view i s) i s.closed s.current) :
    ((view i s).visit conf smsActive).died = true ↔ Silent s i := by
  by_cases unseen : s.total i = 0
  · have absent : i ∉ s.closed.flatten := by
      have total : s.total i = _ := agrees.total
      rw [unseen,List.count_append] at total
      exact List.count_eq_zero.mp (by omega)
    have still : s.died i = false := agrees.died.trans (missingAbsent absent)
    simp [View.visit,view,Silent,unseen,still]
  · have alarmed (v : View) (miss : Bool) : (v.alarm conf smsActive miss).died = miss := rfl
    simp only [View.visit,view,unseen,if_false,alarmed,Silent,ne_eq,not_false_eq_true,true_and]
    exact decide_eq_true_iff

structure Inv (conf : Conf) (smsActive : Bool) (s : State) : Prop where
  agrees : ∀ i, Agrees conf smsActive (view i s) i s.closed s.current
  led : s.led2 = true ↔ ∃ i, s.died i = true

theorem initialInv : Inv conf smsActive initial := by
  refine ⟨fun i => ⟨rfl,rfl,rfl,?_,?_⟩,by simp [initial]⟩ <;>
    simp [view,initial,messagesOf,missing,changes]

theorem visitHistory (s : State) (i : UInt8) : (visit conf smsActive s i).closed = s.closed ∧
    (visit conf smsActive s i).current = s.current := by
  unfold visit alarm
  split
  · exact ⟨rfl,rfl⟩
  · split <;> split <;> exact ⟨rfl,rfl⟩

theorem foldHistory (l : List UInt8) (s : State) : (l.foldl (visit conf smsActive) s).closed = s.closed ∧
    (l.foldl (visit conf smsActive) s).current = s.current := by
  induction l generalizing s with
  | nil => exact ⟨rfl,rfl⟩
  | cons i rest ih =>
    rw [List.foldl_cons,(ih _).1,(ih _).2]
    exact visitHistory s i

theorem closeHistory (s : State) (currTime : Int) :
    (closeInterval conf smsActive s currTime).closed = s.closed ++ [s.current] ∧
    (closeInterval conf smsActive s currTime).current = [] := by
  have loop : (numbers.foldl (visit conf smsActive) {s with errorFlag := false}).closed = s.closed ∧
      (numbers.foldl (visit conf smsActive) {s with errorFlag := false}).current = s.current :=
    foldHistory numbers {s with errorFlag := false}
  rw [closeInterval]
  simp only [loop.1,loop.2,and_self]

theorem closeInv (inv : Inv conf smsActive s) (currTime : Int) :
    Inv conf smsActive (closeInterval conf smsActive s currTime) := by
  have views (i : UInt8) : view i (closeInterval conf smsActive s currTime) =
      (view i s).visit conf smsActive := viewClose s currTime i
  have flag : (closeInterval conf smsActive s currTime).led2 = true ↔ ∃ i, Silent s i := closeFlag s currTime
  obtain ⟨closed,current⟩ : (closeInterval conf smsActive s currTime).closed = s.closed ++ [s.current] ∧
      (closeInterval conf smsActive s currTime).current = [] := closeHistory s currTime
  generalize closeInterval conf smsActive s currTime = t at *
  refine ⟨fun i => ?_,?_⟩
  · rw [views,closed,current]
    exact agreesVisit (inv.agrees i)
  · rw [flag]
    refine exists_congr (fun i => ?_)
    have died : t.died i = ((view i s).visit conf smsActive).died := congrArg View.died (views i)
    rw [died,visitDied (inv.agrees i)]

theorem receiveInv (inv : Inv conf smsActive s) (no : UInt8) : Inv conf smsActive {s with
    total := update s.total no (s.total no + 1)
    counter := update s.counter no (s.counter no + 1)
    current := s.current ++ [no]} := by
  refine ⟨fun i => ?_,inv.led⟩
  have received := agreesReceive (inv.agrees i) no
  by_cases own : i = no
  · subst no
    rw [if_pos rfl] at received
    simpa [view,messagesOf] using received
  · rw [if_neg own] at received
    simpa [view,messagesOf,update_of_ne own] using received

theorem testInv (inv : Inv conf smsActive s) (buf : Bytes) (currTime : Int) :
    Inv conf smsActive (testMultiple conf smsActive s buf currTime) := by
  unfold testMultiple
  split
  · dsimp only
    split
    · exact closeInv (receiveInv inv _) currTime
    · exact receiveInv inv _
  · exact inv

theorem received (conf : Conf) (smsActive : Bool) (packets : List (Bytes × Int)) :
    (run conf smsActive packets).closed.flatten ++ (run conf smsActive packets).current =
      (packets.filter (fun packet => valid packet.1)).map (fun packet => packet.1.getLastD 0) := by
  have step (s : State) (buf : Bytes) (currTime : Int) :
      (testMultiple conf smsActive s buf currTime).closed.flatten ++
        (testMultiple conf smsActive s buf currTime).current =
      s.closed.flatten ++ s.current ++ if valid buf then [buf.getLastD 0] else [] := by
    unfold testMultiple
    split
    · dsimp only
      split
      · rw [(closeHistory _ currTime).1,(closeHistory _ currTime).2]
        simp
      · simp
    · simp
  induction packets using List.reverseRecOn with
  | nil => rfl
  | append_singleton before packet ih =>
    rw [run,List.foldl_append,List.foldl_cons,List.foldl_nil,step,List.filter_append,List.map_append]
    rw [run] at ih
    rw [ih]
    congr 1
    by_cases read : valid packet.1 <;> simp [read]

/-- In every sequence of packets, for every number: at the end of an interval it misses if it was
received before and not in this interval; the text messages are the changes of that, the first
`sms.maxnum_per_rfid` of them, and so a miss first and then by turns. The LED is lit as long as
some number misses. Every packet is in one interval. -/
theorem alarms (conf : Conf) (smsActive : Bool) (packets : List (Bytes × Int)) (i : UInt8) :
    messagesOf (run conf smsActive packets) i = (if smsActive then
      (changes (missing i false (run conf smsActive packets).closed)).take (maxnumPerRfid conf).toNat else []) ∧
    (false :: messagesOf (run conf smsActive packets) i).IsChain (· ≠ ·) ∧
    ((run conf smsActive packets).led2 = true ↔
      ∃ j, (missing j false (run conf smsActive packets).closed).getLastD false = true) ∧
    (run conf smsActive packets).closed.flatten ++ (run conf smsActive packets).current =
      (packets.filter (fun packet => valid packet.1)).map (fun packet => packet.1.getLastD 0) := by
  have inv : Inv conf smsActive (run conf smsActive packets) := by
    unfold run
    refine List.foldlRecOn packets _ initialInv (fun s inv packet _ => testInv inv packet.1 packet.2)
  have messages := (inv.agrees i).messages
  have here : (view i (run conf smsActive packets)).messages = messagesOf (run conf smsActive packets) i := rfl
  rw [here] at messages
  refine ⟨messages,?_,?_,received conf smsActive packets⟩
  · rw [messages]
    split
    · have first := (changesAlternate (missing i false (run conf smsActive packets).closed)).take
        ((maxnumPerRfid conf).toNat + 1)
      rwa [List.take_succ_cons] at first
    · exact List.isChain_singleton _
  · rw [inv.led]
    exact exists_congr (fun j => by rw [← (inv.agrees j).died]; rfl)

end RfidStation.TestReceiver
