import RfidStation.Lib.Window
import Mathlib.Tactic.Ring

/-! The per-student sample state of merger.h: how a reading updates it (handle_student) and
what a timeout decides from it (check_timers). -/
namespace RfidStation.Student
open Window

abbrev headSampleLen : Nat := 5

abbrev headCounterSize : Nat := 4

structure StudentState where
  headMasterCount : BitVec headCounterSize
  headSlaveCount : BitVec headCounterSize
  tail : BitVec headSampleLen
  deriving DecidableEq, Repr

def zero : StudentState := ⟨0,0,0⟩

/-- Writing `state2int.s` and reading `.i`: the fields lie one after the other from the
least significant bit. The bits above them are padding, which nothing reads. -/
def toInt (s : StudentState) : Int :=
  s.headMasterCount.toNat + 2 ^ headCounterSize *
    (s.headSlaveCount.toNat + 2 ^ headCounterSize * s.tail.toNat)

def ofInt (i : Int) : StudentState :=
  ⟨BitVec.ofInt headCounterSize i,
    BitVec.ofInt headCounterSize (i / 2 ^ headCounterSize),
    BitVec.ofInt headSampleLen (i / 2 ^ headCounterSize / 2 ^ headCounterSize)⟩

def update (s : StudentState) (action : Bool) : StudentState :=
  let rotated := {s with
    tail := BitVec.ofNat headSampleLen (shiftIn headSampleLen s.tail.toNat action)}
  if s.headMasterCount.toNat + s.headSlaveCount.toNat < headSampleLen then
    if action then {rotated with headSlaveCount := s.headSlaveCount + 1}
    else {rotated with headMasterCount := s.headMasterCount + 1}
  else rotated

-- What check_timers makes of an expired state: nothing, or a notification whose action is
-- true for IN (slave => master) and false for OUT (master => slave).
def verdict (s : StudentState) : Option Bool :=
  let headIsslave := decide (s.headSlaveCount.toNat > s.headMasterCount.toNat)
  let tailSlaveCount := ones headSampleLen s.tail.toNat 0
  let tailIsslave := decide
    (tailSlaveCount * 2 > s.headMasterCount.toNat + s.headSlaveCount.toNat)
  if headIsslave ≠ tailIsslave then some headIsslave else none

def folded (rs : List Bool) : StudentState := rs.foldl update zero

@[simp] theorem foldedNil : folded [] = zero := rfl

@[simp] theorem foldedSnoc (rs : List Bool) (a : Bool) :
    folded (rs ++ [a]) = update (folded rs) a := by
  simp [folded]

@[simp] theorem ofIntZero : ofInt 0 = zero := rfl

theorem unpackLow {w : Nat} (x y : Int) (hx : 0 ≤ x ∧ x < 2 ^ w) :
    (x + 2 ^ w * y) / 2 ^ w = y ∧ BitVec.ofInt w (x + 2 ^ w * y) = BitVec.ofInt w x := by
  have pos : (0 : Int) < 2 ^ w := Int.pow_pos (by decide)
  refine ⟨?_,BitVec.eq_of_toNat_eq ?_⟩
  · rw [Int.add_mul_ediv_left _ _ (Int.ne_of_gt pos),Int.ediv_eq_zero_of_lt hx.1 hx.2,Int.zero_add]
  · simp only [BitVec.toNat_ofInt,Nat.cast_pow,Nat.cast_ofNat,Int.add_mul_emod_self_left]

@[simp] theorem ofIntToInt (s : StudentState) : ofInt (toInt s) = s := by
  have master := s.headMasterCount.isLt
  have slave := s.headSlaveCount.isLt
  have first := unpackLow (w := headCounterSize) s.headMasterCount.toNat
    (s.headSlaveCount.toNat + 2 ^ headCounterSize * s.tail.toNat)
    ⟨Int.natCast_nonneg _,by exact_mod_cast master⟩
  have second := unpackLow (w := headCounterSize) s.headSlaveCount.toNat s.tail.toNat
    ⟨Int.natCast_nonneg _,by exact_mod_cast slave⟩
  simp only [ofInt,toInt,first.1,first.2,second.1,second.2]
  simp only [BitVec.ofInt_natCast,BitVec.ofNat_toNat,BitVec.setWidth_eq]

structure Holds (rs : List Bool) (s : StudentState) : Prop where
  master : s.headMasterCount.toNat = (rs.take headSampleLen).count false
  slave : s.headSlaveCount.toNat = (rs.take headSampleLen).count true
  tail : s.tail.toNat = rs.foldl (shiftIn headSampleLen) 0

theorem countsLength (l : List Bool) : l.count false + l.count true = l.length := by
  induction l with
  | nil => rfl
  | cons b rest ih => cases b <;> simp <;> omega

theorem holdsSnoc {rs s} (h : Holds rs s) (a : Bool) : Holds (rs ++ [a]) (update s a) := by
  have total := countsLength (rs.take headSampleLen)
  have register : (BitVec.ofNat headSampleLen (shiftIn headSampleLen s.tail.toNat a)).toNat =
      (rs ++ [a]).foldl (shiftIn headSampleLen) 0 := by
    rw [List.foldl_append,← h.tail]
    simp only [List.foldl_cons,List.foldl_nil,shiftInMod,BitVec.toNat_ofNat,Nat.mod_mod]
  by_cases room : rs.length < headSampleLen
  · -- the head still takes the reading: `take` keeps the whole session
    have whole : rs.take headSampleLen = rs := List.take_of_length_le (by omega)
    have whole' : (rs ++ [a]).take headSampleLen = rs ++ [a] :=
      List.take_of_length_le (by simp; omega)
    have counting : s.headMasterCount.toNat + s.headSlaveCount.toNat < headSampleLen := by
      rw [h.master,h.slave,total,whole]; exact room
    have bound : headSampleLen < 2 ^ headCounterSize := by decide
    have fits (c : BitVec headCounterSize) (hc : c.toNat < headSampleLen) :
        (c + 1).toNat = c.toNat + 1 := by
      rw [BitVec.toNat_add]
      exact Nat.mod_eq_of_lt (by simp; omega)
    cases a with
    | true =>
      have inc := fits s.headSlaveCount (by omega)
      refine ⟨?_,?_,?_⟩ <;> simp only [update,counting,if_true]
      · rw [h.master,whole,whole']; simp
      · rw [inc,h.slave,whole,whole']; simp
      · exact register
    | false =>
      have inc := fits s.headMasterCount (by omega)
      refine ⟨?_,?_,?_⟩ <;> simp only [update,counting,if_true,Bool.false_eq_true,if_false]
      · rw [inc,h.master,whole,whole']; simp
      · rw [h.slave,whole,whole']; simp
      · exact register
  · have same : (rs ++ [a]).take headSampleLen = rs.take headSampleLen :=
      List.take_append_of_le_length (by omega)
    have full : ¬ s.headMasterCount.toNat + s.headSlaveCount.toNat < headSampleLen := by
      rw [h.master,h.slave,total,List.length_take]; omega
    refine ⟨?_,?_,?_⟩ <;> simp only [update,full,if_false,same]
    · exact h.master
    · exact h.slave
    · exact register

theorem foldedHolds (rs : List Bool) : Holds rs (folded rs) := by
  induction rs using List.reverseRecOn with
  | nil => exact ⟨rfl,rfl,rfl⟩
  | append_singleton rs a ih => rw [foldedSnoc]; exact holdsSnoc ih a

def mostlySlave (rs : List Bool) : Bool := decide (2 * rs.count true > rs.length)

def sessionVerdict (rs : List Bool) : Option Bool :=
  let k := min rs.length headSampleLen
  let head := mostlySlave (rs.take k)
  let tail := mostlySlave (rs.drop (rs.length - k))
  if head ≠ tail then some head else none

theorem verdictFolded (rs : List Bool) : verdict (folded rs) = sessionVerdict rs := by
  have h := foldedHolds rs
  have total := countsLength (rs.take headSampleLen)
  have length : (rs.take headSampleLen).length = min rs.length headSampleLen := by
    rw [List.length_take,Nat.min_comm]
  have head : rs.take (min rs.length headSampleLen) = rs.take headSampleLen := by
    rw [Nat.min_comm,← List.take_eq_take_min]
  have tailCount : ones headSampleLen (folded rs).tail.toNat 0 =
      (rs.drop (rs.length - min rs.length headSampleLen)).count true := by
    rw [h.tail,onesRegister,← List.count_reverse,List.reverse_take,List.reverse_reverse,
      List.length_reverse]
    congr 2; omega
  have slaves : decide ((folded rs).headSlaveCount.toNat > (folded rs).headMasterCount.toNat) =
      mostlySlave (rs.take (min rs.length headSampleLen)) := by
    rw [head]
    simp only [mostlySlave,h.master,h.slave,decide_eq_decide]
    omega
  have tails : decide (ones headSampleLen (folded rs).tail.toNat 0 * 2 >
      (folded rs).headMasterCount.toNat + (folded rs).headSlaveCount.toNat) =
      mostlySlave (rs.drop (rs.length - min rs.length headSampleLen)) := by
    simp only [mostlySlave,tailCount,h.master,h.slave,total,List.length_drop,decide_eq_decide,
      length]
    omega
  simp only [verdict,sessionVerdict,slaves,tails]

end RfidStation.Student
