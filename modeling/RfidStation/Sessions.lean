import RfidStation.Merger
import Mathlib.Data.List.Dedup

/-! Whole runs of the merger against the sessions they stand for. The reference below never
mentions the dictionaries, the packed state or the shift register. -/
namespace RfidStation.Sessions
open Cstr Config Student Merger

variable {size : Nat}

-- The reading is counted: it passes the zero-byte filter and, where enabled, the XOR check.
def Accepted (conf : Conf) (pack : Bytes) : Prop :=
  (if getInt conf "student.first_byte_zero_enable" ≠ 0 then ∃ b ∈ pack, b ≠ 0
    else pack.headD 0 ≠ 0) ∧
  (getInt conf "student.checksum_enable" ≠ 0 → pack.foldl (· ^^^ ·) 0 = 0)
instance (conf pack) : Decidable (Accepted conf pack) := by unfold Accepted; infer_instance

structure Session where
  readings : List Bool
  last : Int
  deriving DecidableEq, Repr

def advance (conf : Conf) (p : Packet size) :
    Option Session → Event size → Option Session × List Bool
  | session, .reading now role q =>
      if q = p ∧ Accepted conf q.val then
        (some ⟨(session.elim [] Session.readings) ++ [role],now.val⟩,[])
      else (session,[])
  | none, .check _ => (none,[])
  | some session, .check now =>
      if now.val - session.last ≥ getInt conf "student.timeout" then
        (none,(sessionVerdict session.readings).toList)
      else (some session,[])

def emitted (conf : Conf) (p : Packet size) : Option Session → List (Event size) → List Bool
  | _, [] => []
  | session, e :: rest =>
      let r := advance conf p session e
      r.2 ++ emitted conf p r.1 rest

def packets : List (Event size) → List (Packet size)
  | [] => []
  | .reading _ _ q :: rest => q :: packets rest
  | .check _ :: rest => packets rest

def reference (conf : Conf) (events : List (Event size)) : List Notice :=
  (packets events).dedup.flatMap (fun p =>
    (emitted conf p none events).map (fun action => (Hex.sprintBuf p.val,action)))

structure WellFormed (s : State) : Prop where
  students : Dict.Distinct s.students
  timers : Dict.Distinct s.timers

structure Tracks (id : Key) (session : Option Session) (s : State) : Prop where
  timer : Dict.lookup s.timers id = session.map Session.last
  student : Dict.lookup s.students id = session.map (fun x => toInt (folded x.readings))

theorem acceptedIff (conf : Conf) (pack : Bytes) : Accepted conf pack ↔
    passesZeroFilter conf pack = true ∧
      (getInt conf "student.checksum_enable" ≠ 0 → checkPacket pack = true) := by
  unfold Accepted passesZeroFilter checkPacket
  refine and_congr ?_ (by simp)
  split <;> simp

theorem msgLoopPacketCases (conf : Conf) (s : State) (now : Clock) (pack : Bytes) (role : Bool) :
    msgLoopPacket conf s now pack role =
      if Accepted conf pack then handleStudent s now (Hex.sprintBuf pack) role else s := by
  have iff := acceptedIff conf pack
  unfold msgLoopPacket handlePacket
  by_cases passed : passesZeroFilter conf pack = true
  · by_cases rejected : getInt conf "student.checksum_enable" ≠ 0 ∧ ¬ checkPacket pack = true
    · have out : ¬ Accepted conf pack := fun h => rejected.2 ((iff.mp h).2 rejected.1)
      rw [if_pos passed,if_pos rejected,if_neg out]
    · have valid : getInt conf "student.checksum_enable" ≠ 0 → checkPacket pack = true :=
        fun enabled => by_contra (fun bad => rejected ⟨enabled,bad⟩)
      rw [if_pos passed,if_neg rejected,if_pos (iff.mpr ⟨passed,valid⟩)]
  · rw [if_neg passed,if_neg (fun h => passed (iff.mp h).1)]

theorem stepWellFormed (conf : Conf) {s : State} (wf : WellFormed s) (e : Event size) :
    WellFormed (step conf s e) := by
  cases e with
  | reading now role q =>
    simp only [step,msgLoopPacketCases]
    split
    · exact ⟨Dict.setDistinct wf.students _ _,Dict.setDistinct wf.timers _ _⟩
    · exact wf
  | check now =>
    have kept := checkLoopDistinct (studentTimeout conf) now.val s.notices wf.timers wf.students
    exact ⟨kept.2,kept.1⟩

theorem stepTracks (conf : Conf) (p : Packet size) {session s} (wf : WellFormed s)
    (tracks : Tracks (Hex.sprintBuf p.val) session s) (e : Event size) :
    Tracks (Hex.sprintBuf p.val) (advance conf p session e).1 (step conf s e) ∧
    Keyed.ofKey Prod.fst (Hex.sprintBuf p.val) (step conf s e).notices =
      Keyed.ofKey Prod.fst (Hex.sprintBuf p.val) s.notices ++
        (advance conf p session e).2.map (fun action => (Hex.sprintBuf p.val,action)) := by
  cases e with
  | reading now role q =>
    simp only [step,msgLoopPacketCases]
    by_cases accepted : Accepted conf q.val
    · by_cases same : q = p
      · subst q
        have state : ofInt (Dict.get 0 s.students (Hex.sprintBuf p.val)) =
            folded (session.elim [] Session.readings) := by
          rw [Dict.get,tracks.student]
          cases session <;> simp
        simp only [advance,accepted,and_self,if_true,handleStudent,state]
        refine ⟨⟨?_,?_⟩,by simp⟩
        · rw [Dict.setLookup,if_pos rfl]; rfl
        · rw [Dict.setLookup,if_pos rfl,← foldedSnoc]; rfl
      · have other : Hex.sprintBuf q.val ≠ Hex.sprintBuf p.val :=
          fun eq => same (Subtype.ext (Hex.sprintBufInjective eq))
        simp only [advance,accepted,same,false_and,if_true,if_false,handleStudent]
        refine ⟨⟨?_,?_⟩,by simp⟩
        · rw [Dict.setLookup,if_neg other]; exact tracks.timer
        · rw [Dict.setLookup,if_neg other]; exact tracks.student
    · simp only [advance,accepted,and_false,if_false]
      exact ⟨tracks,by simp⟩
  | check now =>
    cases session with
    | none =>
      have kept := checkLoopKept s.notices wf.timers wf.students
        (expiredNone (studentTimeout conf) now.val tracks.timer)
      exact ⟨⟨kept.1.trans tracks.timer,kept.2.1.trans tracks.student⟩,
        kept.2.2.trans (by simp [advance])⟩
    | some session =>
      by_cases old : now.val - session.last ≥ getInt conf "student.timeout"
      · have gone := checkLoopExpired s.notices wf.timers wf.students
          ⟨session.last,tracks.timer,old⟩
        have state : expiryNotices s.students (Hex.sprintBuf p.val) =
            (sessionVerdict session.readings).toList.map
              (fun action => (Hex.sprintBuf p.val,action)) := by
          simp [expiryNotices,Dict.get,tracks.student,verdictFolded]
        simp only [advance,old,if_true]
        exact ⟨⟨gone.1,gone.2.1⟩,gone.2.2.trans (by rw [state])⟩
      · have young : ¬ Expired (studentTimeout conf) now.val s.timers (Hex.sprintBuf p.val) := by
          rintro ⟨value,found,late⟩
          rw [tracks.timer] at found
          cases Option.some.inj found
          exact old late
        have kept := checkLoopKept s.notices wf.timers wf.students young
        simp only [advance,old,if_false]
        exact ⟨⟨kept.1.trans tracks.timer,kept.2.1.trans tracks.student⟩,
          kept.2.2.trans (by simp)⟩

theorem runTracks (conf : Conf) (p : Packet size) (events : List (Event size)) {session s}
    (wf : WellFormed s) (tracks : Tracks (Hex.sprintBuf p.val) session s) :
    Keyed.ofKey Prod.fst (Hex.sprintBuf p.val) (run conf s events).notices =
      Keyed.ofKey Prod.fst (Hex.sprintBuf p.val) s.notices ++
        (emitted conf p session events).map (fun action => (Hex.sprintBuf p.val,action)) := by
  induction events generalizing session s with
  | nil => simp [run,emitted]
  | cons e rest ih =>
    obtain ⟨after,notified⟩ := stepTracks conf p wf tracks e
    have later := ih (stepWellFormed conf wf e) after
    simp only [run,List.foldl_cons] at later ⊢
    rw [later,notified,List.append_assoc,← List.map_append]
    rfl

structure Known (ids : List Key) (s : State) : Prop where
  timers : ∀ id ∈ Dict.keys s.timers, id ∈ ids
  notices : ∀ notice ∈ s.notices, notice.1 ∈ ids

theorem stepKnown (conf : Conf) {ids : List Key} {s : State} (known : Known ids s) (e : Event size)
    (listed : ∀ now role q, e = .reading now role q → Hex.sprintBuf q.val ∈ ids) :
    Known ids (step conf s e) := by
  cases e with
  | reading now role q =>
    simp only [step,msgLoopPacketCases]
    split
    · refine ⟨fun id mem => ?_,known.notices⟩
      by_contra absent
      have other : Hex.sprintBuf q.val ≠ id := by
        rintro rfl; exact absent (listed now role q rfl)
      have before : Dict.lookup s.timers id = none :=
        Dict.lookupNone.mpr (fun inside => absent (known.timers id inside))
      have after : Dict.lookup (Dict.set s.timers (Hex.sprintBuf q.val) now.val) id = none := by
        rw [Dict.setLookup,if_neg other,before]
      exact Dict.lookupNone.mp after mem
    · exact known
  | check now =>
    refine ⟨fun id mem => ?_,fun notice mem => ?_⟩
    · rw [show (step conf s (.check now)).timers = _ from checkLoopTimers ..] at mem
      exact known.timers id ((List.filter_sublist.map Prod.fst).subset mem)
    · rcases checkLoopNotices mem with before | timed
      · exact known.notices notice before
      · exact known.timers _ timed

theorem runKnown (conf : Conf) {ids : List Key} (events : List (Event size)) {s : State}
    (known : Known ids s) (listed : ∀ q ∈ packets events, Hex.sprintBuf q.val ∈ ids) :
    Known ids (run conf s events) := by
  induction events generalizing s with
  | nil => exact known
  | cons e rest ih =>
    refine ih (stepKnown conf known e ?_) ?_
    · rintro now role q rfl; exact listed q List.mem_cons_self
    · intro q mem
      cases e with
      | reading now role r => exact listed q (List.mem_cons_of_mem _ mem)
      | check now => exact listed q mem

theorem initialTracks (id : Key) : Tracks id none initial := ⟨rfl,rfl⟩

theorem initialWellFormed : WellFormed initial := ⟨List.nodup_nil,List.nodup_nil⟩

theorem notificationsAreSessions (conf : Conf) (events : List (Event size)) :
    (run conf initial events).notices.Perm (reference conf events) := by
  have distinct : ((packets events).dedup.map (fun p => Hex.sprintBuf p.val)).Nodup :=
    (List.nodup_dedup _).map (fun a b eq => Subtype.ext (Hex.sprintBufInjective eq))
  have start (ids : List Key) : Known ids initial :=
    ⟨by simp [initial,Dict.newDict,Dict.keys],by simp [initial]⟩
  have known := runKnown conf events (start _)
    (fun q mem => List.mem_map.mpr ⟨q,List.mem_dedup.mpr mem,rfl⟩)
  have byKey := Keyed.permByKeys Prod.fst distinct known.notices
  rw [List.flatMap_map] at byKey
  refine byKey.trans (List.Perm.of_eq ?_)
  apply List.flatMap_congr
  intro p _
  simpa [initial] using runTracks conf p events initialWellFormed (initialTracks _)

def shippedStudent : Conf := [(ascii "student.timeout",ascii "60"),
  (ascii "student.checksum_enable",ascii "1"),(ascii "student.first_byte_zero_enable",ascii "0")]

example : (run shippedStudent initial
    ([.reading ⟨0,by decide⟩ true ⟨[1,1],rfl⟩,.reading ⟨1,by decide⟩ true ⟨[1,1],rfl⟩,
      .reading ⟨2,by decide⟩ true ⟨[1,1],rfl⟩,.reading ⟨3,by decide⟩ true ⟨[1,2],rfl⟩,
      .reading ⟨4,by decide⟩ false ⟨[1,1],rfl⟩,.reading ⟨5,by decide⟩ false ⟨[1,1],rfl⟩,
      .reading ⟨5,by decide⟩ false ⟨[1,1],rfl⟩,
      .check ⟨64,by decide⟩,.check ⟨65,by decide⟩] : List (Event 2))).notices =
    [(ascii "0101",true)] := by decide

end RfidStation.Sessions
