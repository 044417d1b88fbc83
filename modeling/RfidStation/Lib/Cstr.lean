import Mathlib.Data.List.TakeWhile
import Mathlib.Data.Int.Basic

/-! C strings as the bytes before the terminating NUL, and the library calls that read
them. `long` and `int` are both 32 bits wide on the target. -/
namespace Cstr

abbrev Bytes := List UInt8

def ascii (s : String) : Bytes := s.toList.map (fun c => UInt8.ofNat c.toNat)

def isspace (b : UInt8) : Bool := b = 32 || (9 ≤ b && b ≤ 13)

def digitValue (base : Nat) (b : UInt8) : Option Nat :=
  let value := if 48 ≤ b ∧ b ≤ 57 then some (b.toNat - 48)
    else if 97 ≤ b ∧ b ≤ 122 then some (b.toNat - 87)
    else if 65 ≤ b ∧ b ≤ 90 then some (b.toNat - 55)
    else none
  value.filter (· < base)

def digits (base : Nat) : Nat → Bytes → Nat
  | acc, [] => acc
  | acc, b :: rest => match digitValue base b with
    | some d => digits base (acc * base + d) rest
    | none => acc

def skipSpace (s : Bytes) : Bytes := s.dropWhile isspace

def readSign : Bytes → Bool × Bytes
  | 45 :: rest => (true,rest)
  | 43 :: rest => (false,rest)
  | s => (false,s)

-- `strtol` accepts an optional `0x` in base 16 only.
def skipPrefix (base : Nat) : Bytes → Bytes
  | 48 :: x :: rest => if base = 16 ∧ (x = 120 ∨ x = 88) then rest else 48 :: x :: rest
  | s => s

def clamp (v : Int) : Int := max (-2147483648) (min 2147483647 v)

def strtol (base : Nat) (s : Bytes) : Int :=
  let (minus,body) := readSign (skipSpace s)
  let magnitude : Int := digits base 0 (skipPrefix base body)
  clamp (if minus then -magnitude else magnitude)

def atoi (s : Bytes) : Int := strtol 10 s

def cstr (memory : Bytes) : Bytes := memory.takeWhile (· ≠ 0)

theorem cstrCons (b : UInt8) (rest : Bytes) :
    cstr (b :: rest) = if b = 0 then [] else b :: cstr rest := by
  by_cases zero : b = 0 <;> simp [cstr,zero]

theorem cstrWhole {s : Bytes} (nonzero : ∀ b ∈ s, b ≠ 0) : cstr s = s :=
  List.takeWhile_eq_self_iff.mpr (fun b hb => by simpa using nonzero b hb)

theorem cstrChars {memory : Bytes} : ∀ b ∈ cstr memory, b ≠ 0 :=
  fun _ mem => by simpa using List.mem_takeWhile_imp mem

theorem cstrSplit {memory : Bytes} (ended : 0 ∈ memory) :
    ∃ tail, memory = cstr memory ++ 0 :: tail := by
  induction memory with
  | nil => cases ended
  | cons b rest ih =>
    rw [cstrCons]
    split
    · rename_i zero
      exact ⟨rest,by rw [zero]; rfl⟩
    · rename_i other
      obtain ⟨tail,same⟩ := ih ((List.mem_cons.mp ended).resolve_left (Ne.symm other))
      exact ⟨tail,congrArg (b :: ·) same⟩

/- `strncmp(a, b, n) == 0`. The bytes after the end of a list are its NUL. -/
def strncmpEqual : Nat → Bytes → Bytes → Bool
  | 0, _, _ => true
  | n + 1, a, b =>
      if a.headD 0 ≠ b.headD 0 then false
      else if a.headD 0 = 0 then true
      else strncmpEqual n a.tail b.tail

theorem strncmpLength (a b : Bytes) : strncmpEqual a.length (a ++ [0]) b = true ↔
    a <+: cstr b ∨ cstr b ++ [0] <+: a := by
  induction a generalizing b with
  | nil => simp [strncmpEqual]
  | cons x a ih =>
    have ended (rest : Bytes) : strncmpEqual (a.length + 1) (x :: (a ++ [0])) (0 :: rest) = true ↔
        x :: a <+: [] ∨ [0] <+: x :: a := by
      by_cases zero : 0 = x
      · simp [strncmpEqual,← zero]
      · simp [strncmpEqual,Ne.symm zero,zero]
    cases b with
    | nil => exact ended []
    | cons y b =>
      rw [cstrCons]
      by_cases zero : y = 0
      · rw [if_pos zero,zero]
        exact ended b
      · rw [if_neg zero]
        by_cases same : x = y
        · subst same
          simpa [strncmpEqual,zero] using ih b
        · simp [strncmpEqual,same,Ne.symm same]

def isHexDigit (b : UInt8) : Bool := (digitValue 16 b).isSome

def oneDigit : Bytes → Bool
  | d :: rest => 49 ≤ d && d ≤ 57 && !isHexDigit (rest.headD 0)
  | [] => false

-- Blanks, an optional plus sign, zeros, one digit from 1 to 9, and no further digit.
def oneDecimalDigit (s : Bytes) : Bool :=
  let (minus,body) := readSign (skipSpace s)
  !minus && oneDigit (body.dropWhile (· = 48))

theorem digitsGrow (base acc : Nat) (pos : 0 < base) (s : Bytes) : acc ≤ digits base acc s := by
  induction s generalizing acc with
  | nil => exact Nat.le_refl acc
  | cons b rest ih =>
    simp only [digits]
    split
    · rename_i d _
      have scaled : acc * 1 ≤ acc * base := Nat.mul_le_mul_left acc pos
      have later := ih (acc * base + d)
      omega
    · exact Nat.le_refl acc

theorem hexOfDecimal {b : UInt8} {d : Nat} (read : digitValue 10 b = some d) :
    digitValue 16 b = some d := by
  obtain ⟨value,small⟩ := Option.filter_eq_some_iff.mp read
  exact Option.filter_eq_some_iff.mpr ⟨value,by simp at small ⊢; omega⟩

theorem hexExceeds {a b c : Nat} (above : b + c ≤ a) (s : Bytes) :
    digits 10 b s + c ≤ digits 16 a s := by
  induction s generalizing a b with
  | nil => exact above
  | cons e rest ih =>
    cases decimal : digitValue 10 e with
    | some d =>
      simp only [digits,decimal,hexOfDecimal decimal]
      exact ih (by omega)
    | none =>
      have grown := digitsGrow 16 a (by decide) (e :: rest)
      simp only [digits,decimal] at grown ⊢
      omega

theorem digitsZeros (base : Nat) (pos : 0 < base) (s : Bytes) :
    digits base 0 (s.dropWhile (· = 48)) = digits base 0 s := by
  induction s with
  | nil => rfl
  | cons b rest ih =>
    by_cases zero : b = 48
    · subst b
      have value : digitValue base 48 = some 0 := by simp [digitValue,Option.filter,pos]
      simp only [List.dropWhile_cons,decide_true,if_true,digits,value,Nat.zero_mul,Nat.add_zero]
      exact ih
    · simp [zero]

theorem decimalValue {b : UInt8} (low : 49 ≤ b) (high : b ≤ 57) :
    digitValue 10 b = some (b.toNat - 48) := by
  have low' := UInt8.le_iff_toNat_le.mp low
  have high' := UInt8.le_iff_toNat_le.mp high
  have digit : 48 ≤ b ∧ b ≤ 57 := ⟨UInt8.le_trans (by decide) low,high⟩
  simp only [digitValue,if_pos digit,Option.filter]
  simp at low' high' ⊢; omega

theorem letterValue {b : UInt8} (large : ¬ (49 ≤ b ∧ b ≤ 57)) (nonzero : b ≠ 48) :
    digitValue 10 b = none := by
  have bounds : 48 ≤ b ∧ b ≤ 57 → 49 ≤ b ∧ b ≤ 57 := by
    simp only [UInt8.le_iff_toNat_le,← UInt8.toNat_inj.ne] at nonzero ⊢
    simp at nonzero ⊢; omega
  unfold digitValue
  split
  · rename_i digit
    exact (large (bounds digit)).elim
  · split
    · rename_i letter
      simp only [UInt8.le_iff_toNat_le] at letter
      simp [Option.filter] at letter ⊢; omega
    · split
      · rename_i letter
        simp only [UInt8.le_iff_toNat_le] at letter
        simp [Option.filter] at letter ⊢; omega
      · rfl

theorem oneDigitValue {s : Bytes} (one : oneDigit s = true) :
    digits 10 0 s = digits 16 0 s ∧ 1 ≤ digits 16 0 s ∧ digits 16 0 s ≤ 9 := by
  cases s with
  | nil => contradiction
  | cons d rest =>
    simp only [oneDigit,Bool.and_eq_true,decide_eq_true_eq,Bool.not_eq_true'] at one
    obtain ⟨⟨low,high⟩,last⟩ := one
    have value := decimalValue low high
    have first : 1 ≤ d.toNat - 48 ∧ d.toNat - 48 ≤ 9 := by
      have low' := UInt8.le_iff_toNat_le.mp low
      have high' := UInt8.le_iff_toNat_le.mp high
      simp at low' high'; omega
    simp only [digits,value,hexOfDecimal value,Nat.zero_mul,Nat.zero_add]
    cases rest with
    | nil => exact ⟨rfl,first⟩
    | cons b tail =>
      have no_hex : digitValue 16 b = none := by simpa [isHexDigit] using last
      have no_decimal : digitValue 10 b = none := by
        cases read : digitValue 10 b with
        | none => rfl
        | some j => rw [hexOfDecimal read] at no_hex; contradiction
      simp only [digits,no_hex,no_decimal]
      exact ⟨trivial,first⟩

theorem sameValueOneDigit {s : Bytes} (lead : s.headD 0 ≠ 48) (positive : 0 < digits 16 0 s)
    (same : digits 10 0 s = digits 16 0 s) : oneDigit s = true := by
  cases s with
  | nil => contradiction
  | cons d rest =>
    by_cases decimal : 49 ≤ d ∧ d ≤ 57
    · have value := decimalValue decimal.1 decimal.2
      have nonzero : 1 ≤ d.toNat - 48 := by
        have low := UInt8.le_iff_toNat_le.mp decimal.1
        simp at low; omega
      simp only [oneDigit,decimal.1,decimal.2,decide_true,Bool.true_and,Bool.not_eq_true']
      simp only [digits,value,hexOfDecimal value,Nat.zero_mul,Nat.zero_add] at same
      cases rest with
      | nil => rfl
      | cons e tail =>
        simp only [isHexDigit,List.headD_cons,Option.isSome_eq_false_iff,Option.isNone_iff_eq_none]
        cases hex : digitValue 16 e with
        | none => rfl
        | some j =>
          -- one more digit weighs more in base 16
          cases read : digitValue 10 e with
          | none =>
            have grown := digitsGrow 16 ((d.toNat - 48) * 16 + j) (by decide) tail
            simp only [digits,hex,read] at same
            omega
          | some i =>
            obtain rfl : i = j := by rw [hexOfDecimal read] at hex; exact Option.some.inj hex
            have above : (d.toNat - 48) * 10 + i + 1 ≤ (d.toNat - 48) * 16 + i := by omega
            have exceeds := hexExceeds above tail
            simp only [digits,hex,read] at same
            omega
    · have nothing : digits 10 0 (d :: rest) = 0 := by simp only [digits,letterValue decimal lead]
      omega

theorem prefixCases (body : Bytes) : skipPrefix 16 body = body ∨
    digits 10 0 body = 0 ∧ oneDigit (body.dropWhile (· = 48)) = false := by
  unfold skipPrefix
  split
  · rename_i x rest
    split
    · rename_i letter
      right
      rcases letter.2 with rfl | rfl <;> exact ⟨rfl,rfl⟩
    · exact .inl rfl
  · exact .inl rfl

theorem leadingDigit (body : Bytes) : (body.dropWhile (· = 48)).headD 0 ≠ 48 := by
  have stopped := List.head?_dropWhile_not (· = (48 : UInt8)) body
  cases tail : body.dropWhile (· = 48) with
  | nil => decide
  | cons d rest => simpa [tail] using stopped

theorem strtolUnsigned (base : Nat) {s body : Bytes} (sign : readSign (skipSpace s) = (false,body)) :
    strtol base s = clamp (digits base 0 (skipPrefix base body)) := by
  simp [strtol,sign]

theorem skipPrefixDecimal (body : Bytes) : skipPrefix 10 body = body := by
  unfold skipPrefix
  split <;> simp

theorem sameReading {s : Bytes} (positive : 0 < strtol 16 s) (small : strtol 16 s < 2147483647) :
    atoi s = strtol 16 s ↔ oneDecimalDigit s = true := by
  obtain ⟨minus,body,sign⟩ : ∃ minus body, readSign (skipSpace s) = (minus,body) := ⟨_,_,rfl⟩
  cases minus with
  | true =>
    simp only [strtol,sign,if_true,clamp] at positive
    omega
  | false =>
    have ten : atoi s = clamp (digits 10 0 body) := by
      rw [atoi,strtolUnsigned 10 sign,skipPrefixDecimal]
    have sixteen := strtolUnsigned 16 sign
    simp only [oneDecimalDigit,sign,Bool.not_false,Bool.true_and]
    rcases prefixCases body with plain | ⟨nothing,other⟩
    · rw [plain] at sixteen
      rw [sixteen] at positive small ⊢
      rw [ten]
      have zeros10 := digitsZeros 10 (by decide) body
      have zeros16 := digitsZeros 16 (by decide) body
      simp only [clamp] at positive small ⊢
      constructor
      · intro same
        exact sameValueOneDigit (leadingDigit body) (by omega) (by omega)
      · intro one
        have value := oneDigitValue one
        omega
    · rw [ten,nothing,other]
      simp only [clamp,Bool.false_eq_true,iff_false]
      omega

theorem atoiNonneg {s : Bytes} (positive : 0 < strtol 16 s) : 0 ≤ atoi s := by
  obtain ⟨minus,body,sign⟩ : ∃ minus body, readSign (skipSpace s) = (minus,body) := ⟨_,_,rfl⟩
  cases minus with
  | true =>
    simp only [strtol,sign,if_true,clamp] at positive
    omega
  | false =>
    rw [atoi,strtolUnsigned 10 sign,clamp]
    omega

theorem oneDecimalDigitValue {s : Bytes} (one : oneDecimalDigit s = true) :
    1 ≤ strtol 16 s ∧ strtol 16 s ≤ 9 := by
  obtain ⟨minus,body,sign⟩ : ∃ minus body, readSign (skipSpace s) = (minus,body) := ⟨_,_,rfl⟩
  simp only [oneDecimalDigit,sign,Bool.and_eq_true,Bool.not_eq_true'] at one
  obtain ⟨rfl,one⟩ := one
  have value := oneDigitValue one
  rw [digitsZeros 16 (by decide)] at value
  rcases prefixCases body with plain | ⟨_,other⟩
  · rw [strtolUnsigned 16 sign,plain,clamp]
    omega
  · rw [other] at one
    contradiction

example : atoi (ascii " 20000") = 20000 ∧ strtol 16 (ascii "0x0f") = 15 := by decide

end Cstr
