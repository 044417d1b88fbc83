import RfidStation.Lib.Majority
import RfidStation.TimerRace

/-! What the merger makes of a session's readings (handle_student in server.c and check_timers in
timeout.c): a turn from the majority of the first HEAD_SAMPLE_LEN readings to that of the last. -/
namespace RfidStation.Direction
open Student Merger

theorem verdictTurned (rs : List Bool) : verdict (folded rs) = Majority.turned headSampleLen rs := by
  have first : rs.take (min rs.length headSampleLen) = Majority.first headSampleLen rs := by
    rw [Nat.min_comm,← List.take_eq_take_min]
    rfl
  have last : rs.drop (rs.length - min rs.length headSampleLen) = Majority.last headSampleLen rs := by
    rw [Majority.last]
    congr 1
    omega
  rw [verdictFolded]
  simp only [sessionVerdict,first,last]
  rfl

/-- A session read backwards, and one with the two receivers exchanged, are notified the other way
round; three readings of one receiver before all others and three of the other after them are
notified as that passage, whatever was read between them. -/
theorem directionRead (rs : List Bool) :
    verdict (folded rs.reverse) = (verdict (folded rs)).map not ∧
    verdict (folded (rs.map not)) = (verdict (folded rs)).map not ∧
    ∀ n m role, 3 ≤ n → 3 ≤ m →
      verdict (folded (List.replicate n role ++ rs ++ List.replicate m (!role))) = some role := by
  simp only [verdictTurned]
  refine ⟨Majority.turnedReverse _ rs,Majority.turnedNot (by decide) rs,fun n m role begins ends => ?_⟩
  exact Majority.turnedPassage (by decide) (by unfold headSampleLen; omega) (by unfold headSampleLen; omega)
    rs role

theorem directionReadSlaveFirst :
    verdict (folded [true,true,true,false,true,false,false,false]) = some true :=
  (directionRead [false,true]).2.2 3 3 true (by decide) (by decide)

section Runs
open TimerRace (Reading Cell)

end Runs

end RfidStation.Direction
