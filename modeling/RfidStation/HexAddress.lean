import RfidStation.Nrf

/-! load_hex_config (receive/helper.c) against sprint_buf (common.c): the addresses of the
configuration as texts. -/
namespace RfidStation.HexAddress
open Cstr Config Hex Nrf

structure Loaded where
  len : Nat
  buf : Option Bytes
  deriving DecidableEq, Repr

def rejected : Loaded := ⟨0,none⟩

def shiftInto (hi lo : UInt8) : UInt8 := UInt8.ofInt (hex2int hi * 16) + UInt8.ofInt (hex2int lo)

def readPairs : Bytes → Bytes
  | [] => []
  | [_] => []
  | hi :: lo :: rest => shiftInto hi lo :: readPairs rest

-- `none`: strlen is put into an int, and the loop writes behind what was got for it.
def loadHex : Bytes → Option Loaded
  | 48 :: x :: str =>
    if ¬ (x = 120 ∨ x = 88) then some rejected
    else if str.length % 2 ≠ 0 then some rejected
    else if str.length < 2147483648 then some ⟨str.length / 2,some (readPairs str)⟩
    else none
  | _ => some rejected

def isxdigit (c : UInt8) : Bool := (48 ≤ c && c ≤ 57) || (65 ≤ c && c ≤ 70) || (97 ≤ c && c ≤ 102)

def tolower (c : UInt8) : UInt8 := if 65 ≤ c ∧ c ≤ 90 then c + 32 else c

inductive Prefixed : Bytes → Bytes → Prop where
  | small (str : Bytes) : Prefixed (48 :: 120 :: str) str
  | large (str : Bytes) : Prefixed (48 :: 88 :: str) str

/- The prefix and what sprint_buf prints of b, in any letter case. -/
def Prints (s b : Bytes) : Prop := ∃ str, Prefixed s str ∧ str.map tolower = sprintBuf b

def Digits (s : Bytes) : Prop :=
  ∃ str, Prefixed s str ∧ str.length % 2 = 0 ∧ ∀ c ∈ str, isxdigit c = true

structure Inverts (s : Bytes) : Prop where
  reads : ∀ b, Prints s b → loadHex s = some ⟨b.length,some b⟩
  rejects : ¬ Digits s → loadHex s = some rejected

/-- Behind the prefix an even number of characters are all hexadecimal digits, and an int
counts them. -/
def Clean (s : Bytes) : Prop := ∀ str, Prefixed s str → str.length % 2 = 0 →
  (∀ c ∈ str, isxdigit c = true) ∧ str.length < 2147483648

theorem byteCases {p : UInt8 → Prop} (all : ∀ n < 256, p (UInt8.ofNat n)) (c : UInt8) : p c := by
  have same : UInt8.ofNat c.toNat = c := UInt8.ofNat_toNat
  exact same ▸ all c.toNat c.toNat_lt

theorem lowerValue (c : UInt8) : hex2int (tolower c) = hex2int c := by
  revert c
  exact byteCases (by decide +kernel)

theorem lowerDigit (c : UInt8) : isxdigit (tolower c) = isxdigit c := by
  revert c
  exact byteCases (by decide +kernel)

theorem digitLower (c : UInt8) (digit : isxdigit c = true) :
    ∃ n < 16, hex2int c = Int.ofNat n ∧ tolower c = tohexchar n := by
  revert c
  exact byteCases (by decide +kernel)

theorem printedDigit : ∀ n < 16, isxdigit (tohexchar n) = true := by decide

theorem printedDigits (b : Bytes) : ∀ c ∈ sprintBuf b, isxdigit c = true := by
  intro c mem
  obtain ⟨byte,-,digit⟩ := List.mem_flatMap.mp mem
  have bound := byte.toNat_lt
  have low : byte.toNat &&& 15 < 16 := Nat.lt_of_le_of_lt Nat.and_le_right (by decide)
  have high : byte.toNat >>> 4 < 16 := by rw [Nat.shiftRight_eq_div_pow]; omega
  simp only [hexByte,List.mem_cons,List.not_mem_nil,or_false] at digit
  rcases digit with rfl | rfl
  · exact printedDigit _ high
  · exact printedDigit _ low

theorem ofIntSmall {v : Nat} (small : v < 256) : UInt8.ofInt v = UInt8.ofNat v := by
  have same : ((v : Int) % 2 ^ 8).toNat = v := by omega
  rw [UInt8.ofInt,same]

theorem shiftPair (hi lo : UInt8) : shiftInto hi lo = UInt8.ofInt (16 * hex2int hi + hex2int lo) := by
  rw [shiftInto,← UInt8.ofInt_add,Int.mul_comm]

theorem shiftPrinted (b : UInt8) : ∃ hi lo, hexByte b = [hi,lo] ∧ shiftInto hi lo = b := by
  obtain ⟨hi,lo,pair,-,value⟩ := hexByteReads b
  refine ⟨hi,lo,pair,?_⟩
  rw [shiftPair,Int.mul_comm,value,ofIntSmall b.toNat_lt]
  exact UInt8.ofNat_toNat

theorem readPairsLower (str : Bytes) : readPairs (str.map tolower) = readPairs str := by
  fun_induction readPairs str with
  | case1 => rfl
  | case2 => rfl
  | case3 hi lo rest ih =>
    simp only [List.map_cons,readPairs,shiftInto,lowerValue]
    rw [ih]

theorem readPairsPrinted (b : Bytes) : readPairs (sprintBuf b) = b := by
  induction b with
  | nil => rfl
  | cons byte rest ih =>
    obtain ⟨hi,lo,pair,value⟩ := shiftPrinted byte
    rw [sprintBuf,List.flatMap_cons,pair]
    exact congrArg₂ List.cons value ih

theorem shiftPrints {hi lo : UInt8} (high : isxdigit hi = true) (low : isxdigit lo = true) :
    hexByte (shiftInto hi lo) = [tolower hi,tolower lo] := by
  obtain ⟨h,hsmall,hvalue,hchar⟩ := digitLower hi high
  obtain ⟨l,lsmall,lvalue,lchar⟩ := digitLower lo low
  have value : (shiftInto hi lo).toNat = 16 * h + l := by
    have sum : 16 * Int.ofNat h + Int.ofNat l = ((16 * h + l : Nat) : Int) := rfl
    rw [shiftPair,hvalue,lvalue,sum,ofIntSmall (by omega),UInt8.toNat_ofNat']
    omega
  have lower : (16 * h + l) &&& 15 = (16 * h + l) % 16 := Nat.and_two_pow_sub_one_eq_mod _ 4
  have upper : (16 * h + l) >>> 4 = (16 * h + l) / 16 := Nat.shiftRight_eq_div_pow _ 4
  rw [hexByte,value,hchar,lchar,lower,upper]
  rw [show (16 * h + l) / 16 = h by omega,show (16 * h + l) % 16 = l by omega]

theorem readPairsPrints {str : Bytes} (even : str.length % 2 = 0) (digits : ∀ c ∈ str, isxdigit c = true) :
    str.map tolower = sprintBuf (readPairs str) := by
  fun_induction readPairs str with
  | case1 => rfl
  | case2 => cases even
  | case3 hi lo rest ih =>
    obtain ⟨high,low,later⟩ : isxdigit hi = true ∧ isxdigit lo = true ∧ ∀ c ∈ rest, isxdigit c = true := by
      simpa using digits
    rw [sprintBuf,List.flatMap_cons,shiftPrints high low,List.map_cons,List.map_cons]
    have even' : rest.length % 2 = 0 := by
      simp only [List.length_cons] at even
      omega
    rw [ih even' later]
    rfl

theorem prefixedUnique {s a b : Bytes} (first : Prefixed s a) (second : Prefixed s b) : a = b := by
  cases first <;> cases second <;> rfl

theorem loadPrefixed {s str : Bytes} (start : Prefixed s str) : loadHex s =
    if str.length % 2 ≠ 0 then some rejected
    else if str.length < 2147483648 then some ⟨str.length / 2,some (readPairs str)⟩ else none := by
  cases start with
  | small => rw [loadHex,if_neg (not_not_intro (Or.inl rfl))]
  | large => rw [loadHex,if_neg (not_not_intro (Or.inr rfl))]

theorem loadOther {s : Bytes} (other : ¬ ∃ str, Prefixed s str) : loadHex s = some rejected := by
  unfold loadHex
  split
  · rename_i x str
    refine if_pos fun letter => other ⟨str,?_⟩
    rcases letter with rfl | rfl
    · exact .small str
    · exact .large str
  · rfl

theorem printedText {b str : Bytes} (printed : str.map tolower = sprintBuf b) :
    str.length = 2 * b.length ∧ ∀ c ∈ str, isxdigit c = true := by
  constructor
  · rw [← sprintBufLength,← printed,List.length_map]
  · intro c mem
    rw [← lowerDigit]
    exact printedDigits b _ (printed ▸ List.mem_map_of_mem mem)

theorem loadPrints {s b : Bytes} (clean : Clean s) (prints : Prints s b) :
    loadHex s = some ⟨b.length,some b⟩ := by
  obtain ⟨str,start,printed⟩ := prints
  obtain ⟨length,-⟩ := printedText printed
  have even : str.length % 2 = 0 := by omega
  have counted := (clean str start even).2
  rw [loadPrefixed start,if_neg (not_not_intro even),if_pos counted,← readPairsLower,printed,
    readPairsPrinted]
  rw [show str.length / 2 = b.length by omega]

/-- An address is read back from its text, and every other text is rejected, exactly if no
character behind the prefix is a wrong one. -/
theorem invertsIffClean (s : Bytes) : Inverts s ↔ Clean s := by
  constructor
  · intro ⟨reads,rejects⟩ str start even
    have result := loadPrefixed start
    rw [if_neg (not_not_intro even)] at result
    have digits : ∀ c ∈ str, isxdigit c = true := by
      by_contra wrong
      have none : ¬ Digits s := by
        rintro ⟨str',start',-,digits⟩
        exact wrong (prefixedUnique start' start ▸ digits)
      rw [rejects none] at result
      split at result
      · simp [rejected] at result
      · cases result
    refine ⟨digits,?_⟩
    by_contra long
    rw [if_neg long,reads _ ⟨str,start,readPairsPrints even digits⟩] at result
    cases result
  · intro clean
    refine ⟨fun b prints => loadPrints clean prints,fun none => ?_⟩
    by_cases other : ∃ str, Prefixed s str
    · obtain ⟨str,start⟩ := other
      rw [loadPrefixed start]
      refine if_pos fun even => none ⟨str,start,even,(clean str start even).1⟩
    · exact loadOther other

theorem wrongCharacterRead : ¬ ∀ s, Inverts s := by
  intro claim
  have none : ¬ Digits (ascii "0xzz") := by
    rintro ⟨str,start,-,digits⟩
    obtain rfl := prefixedUnique start (.small (ascii "zz"))
    exact absurd (digits 122 (by decide)) (by decide)
  exact absurd ((claim (ascii "0xzz")).rejects none) (by decide)

end RfidStation.HexAddress
