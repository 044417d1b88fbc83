import RfidStation.Config
import RfidStation.Lib.Cstr
import RfidStation.Lib.Maximal
import Mathlib.Data.List.Induction

/-! The loop of cron_channel_switch (receive/nrf.c) that reads nrf.channel. `wrap` is what an
int holds behind a step that overflows. -/
namespace RfidStation.ChannelList
open Cstr

def channelMax : Nat := 256

def isDigit (c : UInt8) : Bool := 48 ≤ c && c ≤ 57

structure Marks where
  bitmap : Nat → Bool
  numChannels : Nat
  lastChannel : Int

structure Scan extends Marks where
  curr : Int
  isempty : Bool
  overflowed : Bool

def noMarks : Marks := ⟨fun _ => false,0,-1⟩

def Marks.mark (m : Marks) (channel : Int) : Marks :=
  ⟨fun c => (c : Int) == channel || m.bitmap c,m.numChannels + 1,channel⟩

def isInt (n : Int) : Bool := -2147483648 ≤ n && n ≤ 2147483647

section
variable (wrap : Int → Int)

def accumulate (s : Scan) (c : UInt8) : Scan :=
  let next := s.curr * 10 + (c.toNat - 48)
  let exact := isInt (s.curr * 10) && isInt next
  {s with isempty := false, curr := if exact then next else wrap next, overflowed := s.overflowed || !exact}

def separator (s : Scan) : Scan :=
  let marked := if !s.isempty && 0 ≤ s.curr && s.curr < channelMax then s.toMarks.mark s.curr else s.toMarks
  {s with toMarks := marked, curr := 0, isempty := true}

def scanChar (s : Scan) (c : UInt8) : Scan := if isDigit c then accumulate wrap s c else separator s

def begin : Scan := ⟨noMarks,0,true,false⟩

def scanChannels (channels : Bytes) : Scan := separator ((cstr channels).foldl (scanChar wrap) begin)

end

def decimal (run : Bytes) : Nat := run.foldl (fun value c => value * 10 + (c.toNat - 48)) 0

def numbers (channels : Bytes) : List Nat := (Maximal.runs isDigit (cstr channels)).map decimal

def valid (number : Nat) : Bool := number < channelMax

structure Listed (named : List Nat) (m : Marks) : Prop where
  bitmap : ∀ c < channelMax, m.bitmap c = true ↔ c ∈ named
  count : m.numChannels = (named.filter valid).length
  last : m.lastChannel = ((named.filter valid).getLast?.map Int.ofNat).getD (-1)

structure Parsed (channels : Bytes) (s : Scan) : Prop where
  exact : s.overflowed = false
  listed : Listed (numbers channels) s.toMarks

def putNumber (m : Marks) (number : Nat) : Marks := if valid number then m.mark number else m

structure Reading (s : Scan) (run : Bytes) : Prop where
  curr : s.curr = decimal run
  isempty : s.isempty = run.isEmpty
  small : decimal run < 2147483648
  exact : s.overflowed = false

theorem decimalConcat (run : Bytes) (c : UInt8) :
    decimal (run ++ [c]) = decimal run * 10 + (c.toNat - 48) := by
  rw [decimal,List.foldl_append]
  rfl

theorem decimalGrows (run more : Bytes) : decimal run ≤ decimal (run ++ more) := by
  induction more using List.reverseRecOn with
  | nil => rw [List.append_nil]
  | append_singleton more c ih =>
    rw [← List.append_assoc,decimalConcat]
    omega

theorem digitAbove {c : UInt8} (digit : isDigit c = true) : 48 ≤ c.toNat := by
  simp only [isDigit,Bool.and_eq_true,decide_eq_true_eq,UInt8.le_iff_toNat_le] at digit
  exact digit.1

section
variable {wrap : Int → Int} {s : Scan} {run : Bytes} {c : UInt8}

theorem nextExact (reading : Reading s run) (digit : isDigit c = true) :
    s.curr * 10 + ((c.toNat : Int) - 48) = decimal (run ++ [c]) ∧
    ((isInt (s.curr * 10) && isInt (s.curr * 10 + ((c.toNat : Int) - 48))) = true ↔
      decimal (run ++ [c]) < 2147483648) := by
  have above := digitAbove digit
  rw [reading.curr,decimalConcat]
  simp only [isInt,Bool.and_eq_true,decide_eq_true_eq]
  omega

theorem accumulateReads (reading : Reading s run) (digit : isDigit c = true)
    (small : decimal (run ++ [c]) < 2147483648) : Reading (accumulate wrap s c) (run ++ [c]) := by
  obtain ⟨next,exact⟩ := nextExact reading digit
  have fits := exact.mpr small
  refine ⟨?_,?_,small,?_⟩
  · exact (if_pos fits).trans next
  · simp [accumulate]
  · simp only [accumulate,fits,reading.exact,Bool.not_true,Bool.or_self]

theorem accumulateOverflows (reading : Reading s run) (digit : isDigit c = true)
    (large : ¬ decimal (run ++ [c]) < 2147483648) : (accumulate wrap s c).overflowed = true := by
  have cut := mt (nextExact reading digit).2.mp large
  simp only [accumulate,Bool.not_eq_true] at cut ⊢
  rw [cut]
  exact Bool.or_true _

theorem separatorMarks (reading : Reading s run) :
    (separator s).toMarks = ((Maximal.flush run).map decimal).foldl putNumber s.toMarks := by
  have exact := reading.curr
  cases run with
  | nil => simp [separator,reading.isempty,Maximal.flush]
  | cons b rest =>
    have inside : (0 ≤ s.curr ∧ s.curr < channelMax) ↔ decimal (b :: rest) < channelMax := by omega
    have begun : s.isempty = false := reading.isempty
    simp only [separator,begun,Bool.not_false,Bool.true_and,Bool.and_eq_true,decide_eq_true_eq,inside]
    rw [exact]
    simp [Maximal.flush,putNumber,valid]

theorem separatorReads (exact : s.overflowed = false) : Reading (separator s) [] :=
  ⟨rfl,rfl,by decide,exact⟩

theorem scanKeepsOverflow (overflowed : s.overflowed = true) (c : UInt8) :
    (scanChar wrap s c).overflowed = true := by
  rw [scanChar]
  split
  · simp only [accumulate,overflowed,Bool.true_or]
  · exact overflowed

theorem overflowStays (rest : Bytes) (overflowed : s.overflowed = true) :
    (separator (rest.foldl (scanChar wrap) s)).overflowed = true := by
  induction rest generalizing s with
  | nil => exact overflowed
  | cons c rest ih => exact ih (scanKeepsOverflow overflowed c)

theorem scanRuns (rest : Bytes) (reading : Reading s run) :
    let named := (Maximal.runsFrom isDigit run rest).map decimal
    let final := separator (rest.foldl (scanChar wrap) s)
    ((∀ number ∈ named, number < 2147483648) →
      final.overflowed = false ∧ final.toMarks = named.foldl putNumber s.toMarks) ∧
    (final.overflowed = false → ∀ number ∈ named, number < 2147483648) := by
  induction rest generalizing s run with
  | nil =>
    refine ⟨fun _ => ⟨reading.exact,separatorMarks reading⟩,fun _ number mem => ?_⟩
    obtain ⟨last,flushed,rfl⟩ := List.mem_map.mp mem
    rw [Maximal.runsFrom,Maximal.flush] at flushed
    split at flushed
    · cases flushed
    · rw [List.mem_singleton.mp flushed]
      exact reading.small
  | cons c rest ih =>
    simp only [Maximal.runsFrom,List.foldl_cons]
    rw [scanChar]
    cases digit : isDigit c with
    | true =>
      simp only [if_true]
      by_cases small : decimal (run ++ [c]) < 2147483648
      · exact ih (accumulateReads reading digit small)
      · have cut : (accumulate wrap s c).overflowed = true := accumulateOverflows reading digit small
        have overflowed : (separator (rest.foldl (scanChar wrap) (accumulate wrap s c))).overflowed = true :=
          overflowStays rest cut
        obtain ⟨more,mem⟩ : ∃ more, run ++ [c] ++ more ∈ Maximal.runsFrom isDigit (run ++ [c]) rest :=
          Maximal.runGoesOn (by simp) rest
        have larger := decimalGrows (run ++ [c]) more
        constructor
        · intro all
          exact absurd (all _ (List.mem_map_of_mem mem)) (by omega)
        · intro exact
          exact absurd (exact.symm.trans overflowed) (by decide)
    | false =>
      simp only [Bool.false_eq_true,if_false,List.map_append,List.foldl_append,List.forall_mem_append]
      obtain ⟨whole,back⟩ := ih (separatorReads (s := s) reading.exact)
      rw [separatorMarks reading] at whole
      refine ⟨fun all => whole all.2,fun exact => ⟨fun number mem => ?_,back exact⟩⟩
      obtain ⟨last,flushed,rfl⟩ := List.mem_map.mp mem
      rw [Maximal.flush] at flushed
      split at flushed
      · cases flushed
      · rw [List.mem_singleton.mp flushed]
        exact reading.small

end

theorem putNumbersListed (named : List Nat) : Listed named (named.foldl putNumber noMarks) := by
  induction named using List.reverseRecOn with
  | nil => exact ⟨fun _ _ => by simp [noMarks],rfl,rfl⟩
  | append_singleton named number ih =>
    rw [List.foldl_append,List.foldl_cons,List.foldl_nil,putNumber]
    obtain ⟨bitmap,count,last⟩ := ih
    split
    · rename_i inside
      refine ⟨fun c small => ?_,?_,?_⟩
      · have named := bitmap c small
        simp only [Marks.mark,Bool.or_eq_true,beq_iff_eq,Int.ofNat_inj,named,List.mem_append,List.mem_singleton]
        exact or_comm
      · simp [Marks.mark,count,inside]
      · simp [Marks.mark,inside]
    · rename_i outside
      refine ⟨fun c small => ?_,?_,?_⟩
      · have other : c ≠ number := by
          rintro rfl
          exact outside (decide_eq_true small)
        simp only [bitmap c small,List.mem_append,List.mem_singleton,other,or_false]
      · simp [count,outside]
      · simp [last,outside]

/-- The scanner reads the list as it stands, whatever an overflow leaves, exactly if every
run of digits is a number that an int can hold. -/
theorem parsedIffInts (wrap : Int → Int) (channels : Bytes) :
    Parsed channels (scanChannels wrap channels) ↔ ∀ number ∈ numbers channels, number < 2147483648 := by
  have first : Reading begin [] := ⟨rfl,rfl,by decide,rfl⟩
  obtain ⟨whole,back⟩ := scanRuns (cstr channels) first
  rw [Maximal.runsFromEmpty] at whole back
  refine ⟨fun parsed => back parsed.exact,fun all => ?_⟩
  obtain ⟨exact,marks⟩ := whole all
  refine ⟨exact,?_⟩
  rw [scanChannels,marks]
  exact putNumbersListed _

def twosComplement (n : Int) : Int := n.bmod 4294967296

theorem longNumberMarksFive : (scanChannels twosComplement (ascii "4294967301")).bitmap 5 = true ∧
    ¬ ∀ wrap channels, channels.length ≤ 99 → Parsed channels (scanChannels wrap channels) := by
  refine ⟨by decide,fun claim => ?_⟩
  have parsed := claim twosComplement (ascii "4294967301") (by decide)
  exact absurd parsed.exact (by decide)

end RfidStation.ChannelList
