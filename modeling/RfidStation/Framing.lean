import RfidStation.Conservation

/-! Record framing of the uploads. The pipeline on bytes refines the same pipeline on whole
records, whose limit is the number of records that fit in http.max_data_len, as long as no
cut of the queue falls inside a record. -/
namespace RfidStation.Framing
open Cstr Config Buffers NotifyQueue Conservation Records
variable {ρ β : Type} {enc : ρ → List β} {width : Nat}

def inRecords (width : Nat) (l : Limits) : Limits := {l with maxDataLen := l.maxDataLen / width}

structure Refines (enc : ρ → List β) (width : Nat) (s : Pipe ρ β) (r : Pipe ρ ρ) : Prop where
  queue : s.queue.cells = r.queue.cells.flatMap enc
  sendBuf : s.sendBuf = r.sendBuf.map (List.flatMap enc)
  sendLen : r.sendLen = s.sendLen / width
  pc : r.pc = s.pc
  calls : r.calls = s.calls
  uploads : s.uploads = r.uploads.map (List.flatMap enc)
  acked : s.acked = r.acked.map (List.flatMap enc)

-- A dequeue with a send_len other than 0 is one whose queue was found too long.
def WholeCut (l : Limits) (width : Nat) (s : Pipe ρ β) : Act ρ → Prop
  | .dequeue => s.sendLen = 0 ∨ (width : Int) ∣ l.maxDataLen
  | _ => True

instance (l : Limits) (width : Nat) (s : Pipe ρ β) (a : Act ρ) : Decidable (WholeCut l width s a) :=
  match a with
  | .dequeue => inferInstanceAs (Decidable (_ ∨ _))
  | .notify _ | .enter | .testEmpty | .testLong | .setLimit | .upload _ => isTrue trivial

theorem refinesLength (wide : ∀ c, (enc c).length = width) {s : Pipe ρ β} {r : Pipe ρ ρ}
    (refines : Refines enc width s r) : s.queueLen = width * r.queueLen := by
  rw [Pipe.queueLen,refines.queue,Blocks.blocksLength wide]; rfl

theorem tailBlocks (wide : ∀ c, (enc c).length = width) {b : Buffer β} {c : Buffer ρ}
    (same : b.cells = c.cells.flatMap enc) (n : Nat) :
    b.tail (width * n) = (c.tail n).flatMap enc := by
  rw [Buffer.tail,same,Blocks.blocksLength wide,← Nat.mul_sub,Blocks.blocksDrop wide]; rfl

theorem shrinkBlocks (wide : ∀ c, (enc c).length = width) {b : Buffer β} {c : Buffer ρ}
    (same : b.cells = c.cells.flatMap enc) (n : Nat) :
    (b.shrink (width * n)).cells = (c.shrink n).cells.flatMap enc := by
  simp only [Buffer.shrink]
  rw [same,Blocks.blocksLength wide,← Nat.mul_sub,Blocks.blocksTake wide]

theorem initialRefines : Refines enc width initial initial := by
  constructor <;> simp [initial,empty]

theorem chunkRefines (wide : ∀ c, (enc c).length = width) {l : Limits} (pos : 0 < width)
    (limit : (width : Int) ≤ l.maxDataLen) {s : Pipe ρ β} {r : Pipe ρ ρ} (sound : Sound l s)
    (here : s.pc = .lock) (refines : Refines enc width s r)
    (cut : s.sendLen = 0 ∨ (width : Int) ∣ l.maxDataLen) : s.chunk = width * r.chunk := by
  have len := refinesLength wide refines
  unfold Pipe.chunk
  rcases sound.bounded here with zero | ⟨same,_⟩
  · rw [if_pos zero,if_pos (by rw [refines.sendLen,zero,Int.zero_ediv]),len,Int.natCast_mul]
  · rcases cut with zero | ⟨k,multiple⟩
    · omega
    · have exactly : r.sendLen = k := by
        rw [refines.sendLen,same,multiple,Int.mul_ediv_cancel_left _ (by omega)]
      have some_records : k ≠ 0 := by rintro rfl; omega
      rw [if_neg (by omega),if_neg (by omega),exactly,same,multiple]

theorem chunkCount (wide : ∀ c, (enc c).length = width) {l : Limits} (pos : 0 < width)
    (limit : (width : Int) ≤ l.maxDataLen) {s : Pipe ρ β} {r : Pipe ρ ρ} (sound : Sound l s)
    (here : s.pc = .lock) (refines : Refines enc width s r)
    (cut : s.sendLen = 0 ∨ (width : Int) ∣ l.maxDataLen) :
    s.chunk.toNat = width * r.chunk.toNat ∧ 0 ≤ r.chunk ∧ r.chunk ≤ r.queueLen := by
  have bounds := chunkBounds (by omega) sound here
  have chunk := chunkRefines wide pos limit sound here refines cut
  rw [chunk,refinesLength wide refines,Int.natCast_mul] at bounds
  have inside : 0 ≤ r.chunk := Int.le_of_lt (Int.pos_of_mul_pos_right bounds.1 (by omega))
  refine ⟨?_,inside,Int.le_of_mul_le_mul_left bounds.2 (by omega)⟩
  rw [chunk,Int.toNat_mul (by omega) inside]; rfl

theorem stepRefines (wide : ∀ c, (enc c).length = width) {l : Limits} (pos : 0 < width)
    (limit : (width : Int) ≤ l.maxDataLen) {s r a t} (sound : Sound l s)
    (refines : Refines enc width s r) (cut : WholeCut l width s a) (h : step l enc s a = some t) :
    ∃ r', step (inRecords width l) (fun c => [c]) r a = some r' ∧ Refines enc width t r' := by
  have len := refinesLength wide refines
  obtain ⟨queue,sendBuf,sendLen,pc,calls,uploads,acked⟩ := refines
  cases a with
  | notify call =>
    obtain rfl := stepNotify h
    exact ⟨_,rfl,by simp [queue],sendBuf,sendLen,pc,by simp [calls],uploads,acked⟩
  | enter =>
    obtain ⟨here,rfl⟩ := stepEnter h
    exact ⟨_,if_pos (pc.trans here),queue,sendBuf,sendLen,by simp only [sendBuf,Option.isSome_map],
      calls,uploads,acked⟩
  | testEmpty =>
    obtain ⟨here,rfl⟩ := stepTestEmpty h
    have sameTest : s.queueLen = 0 ↔ r.queueLen = 0 := by
      rw [len,Nat.mul_eq_zero]; omega
    exact ⟨_,if_pos (pc.trans here),queue,sendBuf,sendLen,by simp only [sameTest],
      calls,uploads,acked⟩
  | testLong =>
    obtain ⟨here,rfl⟩ := stepTestLong h
    have sameTest : (s.queueLen : Int) > l.maxDataLen ↔
        (r.queueLen : Int) > (inRecords width l).maxDataLen := by
      rw [len,Int.natCast_mul,Int.mul_comm]
      exact (Int.ediv_lt_iff_lt_mul (by omega)).symm
    refine ⟨_,if_pos (pc.trans here),?_⟩
    simp only [sameTest]
    split
    · exact ⟨queue,sendBuf,sendLen,rfl,calls,uploads,acked⟩
    · exact ⟨queue,sendBuf,(Int.zero_ediv _).symm,rfl,calls,uploads,acked⟩
  | setLimit =>
    obtain ⟨here,rfl⟩ := stepSetLimit h
    exact ⟨_,if_pos (pc.trans here),queue,sendBuf,rfl,rfl,calls,uploads,acked⟩
  | dequeue =>
    obtain ⟨here,rfl⟩ := stepDequeue (by omega) sound h
    have refines : Refines enc width s r := ⟨queue,sendBuf,sendLen,pc,calls,uploads,acked⟩
    have chunk := chunkRefines wide pos limit sound here refines cut
    obtain ⟨count,inside⟩ := chunkCount wide pos limit sound here refines cut
    refine ⟨_,(if_pos (pc.trans here)).trans (congrArg some (if_pos inside)),
      ?_,?_,?_,rfl,calls,uploads,acked⟩
    · simp only [count]; exact shrinkBlocks wide queue _
    · simp only [count,Option.map_some]; rw [tailBlocks wide queue]
    · simp only [chunk]; rw [Int.mul_ediv_cancel_left _ (by omega)]
  | upload reply =>
    obtain ⟨body,here,pending,rfl⟩ := stepUpload h
    obtain ⟨rs,offered,rfl⟩ := Option.map_eq_some_iff.mp (sendBuf.symm.trans pending)
    have same : acknowledged (inRecords width l) reply = acknowledged l reply := rfl
    simp only [step,pc,here,offered,same]
    refine ⟨_,rfl,?_⟩
    split
    · exact ⟨queue,rfl,sendLen,rfl,calls,by simp [uploads],by simp [acked]⟩
    · exact ⟨queue,pending,sendLen,rfl,calls,by simp [uploads],acked⟩

theorem inRecordsLimit {l : Limits} (limit : (width : Int) ≤ l.maxDataLen) :
    0 ≤ (inRecords width l).maxDataLen := Int.ediv_nonneg (by omega) (by omega)

variable {size : Nat}

structure Whole (l : Limits) (s : Pipe (Notice size) UInt8) (r : Pipe (Notice size) (Notice size)) :
    Prop where
  sound : Sound l s
  soundRecords : Sound (inRecords (requestSize size) l) r
  once : EachOnce (fun call => [call]) r
  refines : Refines record (requestSize size) s r

theorem initialWhole (l : Limits) : Whole l (initial : Pipe (Notice size) UInt8) initial :=
  ⟨initialSound l,initialSound _,initialEachOnce _,initialRefines⟩

theorem stepWhole {l : Limits} (limit : (requestSize size : Int) ≤ l.maxDataLen)
    {s t : Pipe (Notice size) UInt8} {r a} (whole : Whole l s r)
    (cut : WholeCut l (requestSize size) s a) (h : step l record s a = some t) :
    ∃ r', step (inRecords (requestSize size) l) (fun call => [call]) r a = some r' ∧
      Whole l t r' := by
  have bound := inRecordsLimit limit
  obtain ⟨r',moved,refines⟩ := stepRefines recordLength (by unfold requestSize; omega) limit
    whole.sound whole.refines cut h
  exact ⟨r',moved,stepSound (by omega) whole.sound h,stepSound bound whole.soundRecords moved,
    stepEachOnce bound whole.soundRecords whole.once moved,refines⟩

def Framed (s : Pipe (Notice size) UInt8) : Prop :=
  (∀ body ∈ s.uploads, ∃ calls, calls.Sublist s.calls ∧ body = calls.flatMap record ∧
    decodeBody size body = some calls) ∧ requestSize size ∣ s.queueLen

theorem wholeFramed {l : Limits} {s : Pipe (Notice size) UInt8} {r} (whole : Whole l s r) :
    Framed s := by
  refine ⟨?_,_,refinesLength recordLength whole.refines⟩
  intro body mem
  rw [whole.refines.uploads] at mem
  obtain ⟨calls,offered,rfl⟩ := List.mem_map.mp mem
  have original := whole.once.2 calls offered
  rw [appended,List.flatMap_singleton',whole.refines.calls] at original
  exact ⟨calls,original,rfl,decodeBodyReads calls⟩

theorem cutSpoils {l : Limits} (limit : (requestSize size : Int) ≤ l.maxDataLen)
    {s t : Pipe (Notice size) UInt8} {r a} (whole : Whole l s r)
    (cut : ¬ WholeCut l (requestSize size) s a) (h : step l record s a = some t) : ¬ Framed t := by
  cases a <;> try exact (cut trivial).elim
  simp only [WholeCut,not_or] at cut
  obtain ⟨here,rfl⟩ := stepDequeue (by omega) whole.sound h
  have bounds := chunkBounds (by omega) whole.sound here
  have long : s.sendLen = l.maxDataLen := by
    rcases whole.sound.bounded here with zero | ⟨same,_⟩
    · exact (cut.1 zero).elim
    · exact same
  intro framed
  have before : requestSize size ∣ s.queueLen := ⟨_,refinesLength recordLength whole.refines⟩
  have after := framed.2
  simp only [Pipe.queueLen,Buffer.shrink,List.length_take] at after before bounds
  rw [Nat.min_eq_left (by omega)] at after
  have taken := (Nat.dvd_sub_iff_right (by omega) before).mp after
  refine cut.2 ?_
  rw [← long,← show s.chunk = s.sendLen from if_neg cut.1,← Int.toNat_of_nonneg (by omega : 0 ≤ s.chunk)]
  exact Int.natCast_dvd_natCast.mpr taken

/-- Every upload decodes into whole notified records throughout a run, and the queue stays a
number of whole records, exactly if the run never cuts at a limit of no whole records. -/
theorem framedIffWholeCut (conf : Conf)
    (limit : (requestSize size : Int) ≤ (limits conf).maxDataLen) (acts : List (Act (Notice size))) :
    Runs.Always (step (limits conf) record) Framed initial acts ↔
      Runs.Meets (step (limits conf) record) (WholeCut (limits conf) (requestSize size))
        initial acts := by
  refine Runs.alwaysIffMeets (I := fun s => ∃ r, Whole (limits conf) s r) ?_ ?_ ?_
    ⟨initial,initialWhole _⟩ acts
  · rintro s ⟨r,whole⟩
    exact wholeFramed whole
  · rintro s a t ⟨r,whole⟩ cut h
    obtain ⟨r',_,later⟩ := stepWhole limit whole cut h
    exact ⟨r',later⟩
  · rintro s a t ⟨r,whole⟩ cut h
    exact cutSpoils limit whole cut h

def fourBytes : Conf := addConfig [] (ascii "http.max_data_len") (ascii "4")

theorem framedFourBytes :
    (∃ s, Runs.exec (step (limits fourBytes) record) initial backlog = some s ∧
      s.uploads = [ascii "090."] ∧ s.queueLen = 4) ∧
    Runs.Always (step (limits fourBytes) record) Framed initial backlog := by
  have seen : (Runs.exec (step (limits fourBytes) record) initial backlog).map
      (fun s => (s.uploads,s.queueLen)) = some ([ascii "090."],4) := by decide
  obtain ⟨s,run,same⟩ := Option.map_eq_some_iff.mp seen
  obtain ⟨uploads,left⟩ := Prod.mk.inj same
  exact ⟨⟨s,run,uploads,left⟩,(framedIffWholeCut fourBytes (by decide) backlog).mpr (by decide)⟩

theorem cutInsideRecord :
    ¬ ∀ (size : Nat) (conf : Conf), 1 ≤ size → (requestSize size : Int) ≤ (limits conf).maxDataLen →
      ∀ acts : List (Act (Notice size)),
        Runs.Always (step (limits conf) record) Framed initial acts := by
  intro claim
  have seen : (Runs.exec (step (limits fiveBytes) record) initial backlog).map Pipe.queueLen =
      some 3 := by decide
  obtain ⟨s,run,len⟩ := Option.map_eq_some_iff.mp seen
  refine Runs.notAlways run (fun framed : Framed s => ?_)
    (claim 1 fiveBytes (by decide) (by decide) backlog)
  have whole := framed.2
  rw [len] at whole
  exact absurd whole (by decide)

end RfidStation.Framing
