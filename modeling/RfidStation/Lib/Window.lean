import Mathlib.Data.List.Induction
import Mathlib.Algebra.Group.Nat.Defs
import Mathlib.Data.Nat.Bits

/-! The last `w` bits of a sequence kept in a shift register of width `w`, and the loop
that counts its ones. Bits are listed least significant first. -/
namespace Window

def bits : List Bool → Nat
  | [] => 0
  | b :: rest => b.toNat + 2 * bits rest

def shiftIn (w t : Nat) (a : Bool) : Nat := ((t <<< 1) + a.toNat) &&& ((1 <<< w) - 1)

-- `while (t) { count += t & 1; t >>= 1; }`, for a register of at most `fuel` bits.
def ones : (fuel t count : Nat) → Nat
  | 0, _, count => count
  | fuel + 1, t, count => if t = 0 then count else ones fuel (t >>> 1) (count + (t &&& 1))

theorem bitsMod (w : Nat) (l : List Bool) : bits l % 2 ^ w = bits (l.take w) := by
  induction l generalizing w with
  | nil => simp [bits]
  | cons b rest ih =>
    cases w with
    | zero => simp [bits,Nat.mod_one]
    | succ w =>
      have small := Bool.toNat_lt b
      simp only [List.take_succ_cons,bits,← ih w,Nat.pow_succ']
      have below := Nat.mod_lt (bits rest) (Nat.two_pow_pos w)
      have low : b.toNat % (2 * 2 ^ w) = b.toNat := Nat.mod_eq_of_lt (by omega)
      rw [Nat.add_mod,Nat.mul_mod_mul_left,low]
      exact Nat.mod_eq_of_lt (by omega)

theorem shiftInMod (w t : Nat) (a : Bool) : shiftIn w t a = (a.toNat + 2 * t) % 2 ^ w := by
  simp only [shiftIn,Nat.shiftLeft_eq,Nat.one_mul,Nat.and_two_pow_sub_one_eq_mod,Nat.pow_one]
  rw [Nat.mul_comm t 2,Nat.add_comm]

theorem registerBits (w : Nat) (rs : List Bool) :
    rs.foldl (shiftIn w) 0 = bits (rs.reverse.take w) := by
  induction rs using List.reverseRecOn with
  | nil => simp [bits]
  | append_singleton rs a ih =>
    have unshifted : a.toNat + 2 * bits (rs.reverse.take w) = bits (a :: rs.reverse.take w) := rfl
    rw [List.foldl_append,ih]
    simp only [List.foldl_cons,List.foldl_nil,shiftInMod,unshifted,bitsMod]
    rw [List.reverse_append]
    cases w with
    | zero => simp
    | succ w => simp [List.take_take]

theorem bitsZero {l : List Bool} (h : bits l = 0) : l.count true = 0 := by
  induction l with
  | nil => rfl
  | cons b rest ih =>
    simp only [bits] at h
    have rest_zero : bits rest = 0 := by omega
    cases b with
    | true => simp at h
    | false => simpa using ih rest_zero

theorem onesBits (fuel : Nat) (l : List Bool) (count : Nat) (fits : l.length ≤ fuel) :
    ones fuel (bits l) count = count + l.count true := by
  induction fuel generalizing l count with
  | zero =>
    have empty : l = [] := List.length_eq_zero_iff.mp (by omega)
    subst l; simp [ones]
  | succ fuel ih =>
    by_cases zero : bits l = 0
    · simp [ones,zero,bitsZero zero]
    · cases l with
      | nil => simp [bits] at zero
      | cons b rest =>
        have small := Bool.toNat_lt b
        have shifted : bits (b :: rest) >>> 1 = bits rest := by
          simp only [bits,Nat.shiftRight_eq_div_pow]; omega
        have low : bits (b :: rest) &&& 1 = b.toNat := by
          simp only [bits,Nat.and_one_is_mod]; omega
        rw [ones,if_neg zero,shifted,low,ih rest _ (by simpa using fits)]
        cases b with
        | true => simp; omega
        | false => simp

theorem onesRegister (w : Nat) (rs : List Bool) :
    ones w (rs.foldl (shiftIn w) 0) 0 = (rs.reverse.take w).count true := by
  rw [registerBits,onesBits]
  · simp
  · exact List.length_take_le w _

end Window
