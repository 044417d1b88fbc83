import RfidStation.Hex
import RfidStation.Lib.Blocks
import RfidStation.Merger

/-! The records that notify writes for the cloud, and how they read back. -/
namespace RfidStation.Records
open Cstr Hex
open Merger (Packet)
variable {size : Nat}

def requestSize (size : Nat) : Nat := size * 2 + 2

abbrev Notice (size : Nat) := Packet size × Bool

def record (call : Notice size) : Bytes :=
  sprintBuf call.1.val ++ [48 + UInt8.ofNat call.2.toNat,46]

def oneByte (b : UInt8) : Packet 1 := ⟨[b],rfl⟩

theorem recordLength (call : Notice size) : (record call).length = requestSize size := by
  simp only [record,List.length_append,sprintBufLength,call.1.property,requestSize,
    List.length_cons,List.length_nil]
  omega

theorem recordNonzero (call : Notice size) : ∀ b ∈ record call, b ≠ 0 := by
  intro b mem
  rcases List.mem_append.mp mem with id | rest
  · exact sprintBufNonzero _ b id
  · clear mem
    generalize call.2 = action at rest
    cases action <;> revert b <;> decide +kernel

def readHex : Nat → Bytes → Option (Bytes × Bytes)
  | 0, s => some ([],s)
  | n + 1, hi :: lo :: rest =>
    if 0 ≤ hex2int hi ∧ 0 ≤ hex2int lo then do
      let (tail,s) ← readHex n rest
      some (UInt8.ofNat (hex2int hi * 16 + hex2int lo).toNat :: tail,s)
    else none
  | _, _ => none

def readRecord (size : Nat) (s : Bytes) : Option (Notice size × Bytes) :=
  match readHex size s with
  | some (id,action :: 46 :: rest) =>
    if h : id.length = size then
      if action = 48 then some ((⟨id,h⟩,false),rest)
      else if action = 49 then some ((⟨id,h⟩,true),rest)
      else none
    else none
  | _ => none

-- One record is at least two bytes, so the length is fuel enough.
def readRecords (size : Nat) : Nat → Bytes → Option (List (Notice size))
  | _, [] => some []
  | 0, _ => none
  | n + 1, s => do
    let (call,rest) ← readRecord size s
    let calls ← readRecords size n rest
    some (call :: calls)

def decodeBody (size : Nat) (body : Bytes) : Option (List (Notice size)) :=
  readRecords size body.length body

theorem readHexReads (id rest : Bytes) : readHex id.length (sprintBuf id ++ rest) = some (id,rest) := by
  induction id with
  | nil => rfl
  | cons b tail ih =>
    obtain ⟨hi,lo,digits,valid,value⟩ := hexByteReads b
    have same : sprintBuf (b :: tail) ++ rest = hi :: lo :: (sprintBuf tail ++ rest) := by
      simp [sprintBuf,digits]
    rw [same,List.length_cons]
    simp only [readHex,if_pos valid,ih,value,Int.toNat_natCast,UInt8.ofNat_toNat,bind,Option.bind]

theorem readRecordReads (call : Notice size) (rest : Bytes) :
    readRecord size (record call ++ rest) = some (call,rest) := by
  obtain ⟨⟨id,wide⟩,action⟩ := call
  subst wide
  simp only [readRecord,record,List.append_assoc,readHexReads]
  cases action <;> simp

theorem readRecordsReads (calls : List (Notice size)) {fuel : Nat} (enough : calls.length ≤ fuel) :
    readRecords size fuel (calls.flatMap record) = some calls := by
  induction calls generalizing fuel with
  | nil => cases fuel <;> rfl
  | cons call rest ih =>
    obtain ⟨n,rfl⟩ : ∃ n, fuel = n + 1 := ⟨fuel - 1,by rw [List.length_cons] at enough; omega⟩
    have later := ih (Nat.le_of_succ_le_succ enough)
    have first := readRecordReads call (rest.flatMap record)
    rw [List.flatMap_cons]
    cases bytes : record call ++ rest.flatMap record with
    | nil => simp [record] at bytes
    | cons b more =>
      rw [bytes] at first
      simp only [readRecords,first,later,bind,Option.bind]

theorem decodeBodyReads (calls : List (Notice size)) :
    decodeBody size (calls.flatMap record) = some calls := by
  refine readRecordsReads calls ?_
  rw [Blocks.blocksLength recordLength,requestSize]
  exact Nat.le_mul_of_pos_left _ (by omega)

end RfidStation.Records
