import RfidStation.HttpRequest
import RfidStation.Records
import RfidStation.Lib.Percent

/-! urlencode (http.c) on all texts, and on the records that notify writes. -/
namespace RfidStation.UrlEncode
open Cstr Hex HttpRequest

def lowerHex (c : UInt8) : Bool := (48 ≤ c && c ≤ 57) || (97 ≤ c && c ≤ 102)

def plainChars : Bytes := ascii "abcdefghijklmnopqrstuvwxyzABCDEFGHIJKLMNOPQRSTUVWXYZ0123456789.-*_"

/- One character of a message as it is written. -/
def Piece (p : Bytes) : Prop := (∃ c ∈ plainChars, p = [c]) ∨
  ∃ hi lo, lowerHex hi = true ∧ lowerHex lo = true ∧ p = [37,hi,lo]

structure RoundTrips (s : Bytes) : Prop where
  fits : (urlencode s).length + 1 ≤ 3 * s.length + 1
  pieces : ∃ parts : List Bytes, urlencode s = parts.flatten ∧ ∀ p ∈ parts, Piece p
  decodes : Percent.decode (urlencode s) = some s
  separators : ∀ c ∈ urlencode s, c ≠ 38 ∧ c ≠ 61 ∧ isspace c = false

theorem digitReads : ∀ n < 16, digitValue 16 (tohexchar n) = some n := by decide

theorem digitLower : ∀ n < 16, lowerHex (tohexchar n) = true := by decide

theorem hexByteDigits (b : UInt8) : ∃ high low, high < 16 ∧ low < 16 ∧
    hexByte b = [tohexchar high,tohexchar low] ∧ high * 16 + low = b.toNat := by
  have byte := b.toNat_lt
  have low : b.toNat &&& 15 = b.toNat % 16 := Nat.and_two_pow_sub_one_eq_mod b.toNat 4
  have high : b.toNat >>> 4 = b.toNat / 16 := Nat.shiftRight_eq_div_pow b.toNat 4
  refine ⟨b.toNat >>> 4,b.toNat &&& 15,?_,?_,rfl,?_⟩ <;> omega

theorem hexByteDecodes (b : UInt8) : Percent.Digits (hexByte b) b := by
  obtain ⟨high,low,small,small',digits,value⟩ := hexByteDigits b
  exact ⟨_,_,high,low,digits,digitReads high small,digitReads low small',value⟩

theorem hexByteLower (b : UInt8) : ∃ hi lo, hexByte b = [hi,lo] ∧ lowerHex hi = true ∧
    lowerHex lo = true := by
  obtain ⟨high,low,small,small',digits,-⟩ := hexByteDigits b
  exact ⟨_,_,digits,digitLower high small,digitLower low small'⟩

theorem lowerHexUnreserved {c : UInt8} (digit : lowerHex c = true) : unreserved c = true := by
  simp only [lowerHex,unreserved,Bool.or_eq_true,Bool.and_eq_true,decide_eq_true_eq] at digit ⊢
  rcases digit with number | ⟨low,high⟩
  · simp [number]
  · have letter : c ≤ 122 := UInt8.le_trans high (by decide)
    simp [low,letter]

theorem unreservedAbove {c : UInt8} (kept : unreserved c = true) : 42 ≤ c.toNat ∧ c.toNat ≠ 61 := by
  simp only [unreserved,Bool.or_eq_true,Bool.and_eq_true,decide_eq_true_eq,beq_iff_eq,
    UInt8.le_iff_toNat_le,← UInt8.toNat_inj,UInt8.reduceToNat] at kept
  omega

theorem isspaceBelow {c : UInt8} (blank : isspace c = true) : c.toNat ≤ 32 := by
  simp only [isspace,Bool.or_eq_true,Bool.and_eq_true,decide_eq_true_eq,UInt8.le_iff_toNat_le,
    ← UInt8.toNat_inj,UInt8.reduceToNat] at blank
  omega

theorem unreservedPlain {c : UInt8} (kept : unreserved c = true) :
    c ≠ 38 ∧ c ≠ 61 ∧ isspace c = false := by
  obtain ⟨above,other⟩ := unreservedAbove kept
  refine ⟨?_,?_,?_⟩
  · intro same
    rw [same] at above
    exact absurd above (by decide)
  · intro same
    exact other (congrArg UInt8.toNat same)
  · by_contra blank
    have below := isspaceBelow (Bool.of_not_eq_false blank)
    omega

theorem unreservedChars {c : UInt8} (kept : unreserved c = true) : c ∈ plainChars := by
  have table : ∀ n < 256, unreserved (UInt8.ofNat n) = true → UInt8.ofNat n ∈ plainChars := by
    decide +kernel
  have byte := table c.toNat c.toNat_lt
  rw [UInt8.ofNat_toNat] at byte
  exact byte kept

theorem urlencodePieces (s : Bytes) : ∃ parts : List Bytes, urlencode s = parts.flatten ∧ ∀ p ∈ parts, Piece p := by
  refine ⟨_,List.flatMap_def,fun p mem => ?_⟩
  obtain ⟨c,-,rfl⟩ := List.mem_map.mp mem
  split
  · exact .inl ⟨c,unreservedChars ‹_›,rfl⟩
  · obtain ⟨hi,lo,digits,high,low⟩ := hexByteLower c
    exact .inr ⟨hi,lo,high,low,congrArg (37 :: ·) digits⟩

theorem urlencodePlain {s : Bytes} {c : UInt8} (mem : c ∈ urlencode s) :
    c ≠ 38 ∧ c ≠ 61 ∧ isspace c = false := by
  rcases Percent.encodeMem mem with kept | escape | ⟨b,digit⟩
  · exact unreservedPlain kept
  · rw [escape]; decide
  · obtain ⟨hi,lo,digits,high,low⟩ := hexByteLower b
    rw [digits] at digit
    rcases List.mem_cons.mp digit with rfl | last
    · exact unreservedPlain (lowerHexUnreserved high)
    · rw [List.mem_singleton.mp last]
      exact unreservedPlain (lowerHexUnreserved low)

theorem roundTrips (s : Bytes) : RoundTrips s where
  fits := Nat.succ_le_succ (Percent.encodeLength (fun _ => rfl) s)
  pieces := urlencodePieces s
  decodes := Percent.decodeEncode (by decide) hexByteDecodes s
  separators := fun _ mem => urlencodePlain mem

theorem recordUnreserved {size : Nat} (call : Records.Notice size) :
    ∀ c ∈ Records.record call, unreserved c = true := by
  intro c mem
  rcases List.mem_append.mp mem with id | rest
  · obtain ⟨b,-,digit⟩ := List.mem_flatMap.mp id
    obtain ⟨hi,lo,digits,high,low⟩ := hexByteLower b
    rw [digits] at digit
    rcases List.mem_cons.mp digit with rfl | last
    · exact lowerHexUnreserved high
    · rw [List.mem_singleton.mp last]
      exact lowerHexUnreserved low
  · clear mem
    generalize call.2 = action at rest
    cases action <;> revert c <;> decide +kernel

theorem recordsUnchanged {size : Nat} (calls : List (Records.Notice size)) :
    urlencode (calls.flatMap Records.record) = calls.flatMap Records.record := by
  refine Percent.encodeKept fun c mem => ?_
  obtain ⟨call,-,inside⟩ := List.mem_flatMap.mp mem
  exact recordUnreserved call c inside

/-- Every message is written with unreserved characters and `%hh` only, fits the buffer, and
reads back as it was; what notify has written is not changed. -/
theorem urlencodeRoundTrips :
    (∀ s, RoundTrips s) ∧ Function.Injective urlencode ∧
    ∀ size (calls : List (Records.Notice size)),
      urlencode (calls.flatMap Records.record) = calls.flatMap Records.record :=
  ⟨roundTrips,Percent.encodeInjective (by decide) hexByteDecodes,fun _ => recordsUnchanged⟩

example : urlencode [37,200,32] = ascii "%25%c8%20" := by decide

end RfidStation.UrlEncode
