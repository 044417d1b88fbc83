import RfidStation.Framing
import RfidStation.Lib.Keyed

/-! The order in which the records of one student reach the cloud. commit_notify_queue takes
the newest records first, so a cut of the queue changes the order of the records of a student
that it takes with those that it leaves. -/
namespace RfidStation.DeliveryOrder
open Cstr Config Buffers NotifyQueue Conservation Records Framing Keyed
open Merger (Packet)
variable {ρ β κ : Type} [DecidableEq κ] {key : ρ → κ} {k : κ} {size : Nat}

/- `view` reads the records of one student from a place. -/
def InOrder (view : List β → List ρ) (key : ρ → κ) (k : κ) (s : Pipe ρ β) : Prop :=
  s.acked.flatMap view ++ view (s.sendBuf.getD []) ++ view s.queue.cells = ofKey key k s.calls

def Exchangeable (view : List β → List ρ) (s : Pipe ρ β) : Act ρ → Prop
  | .dequeue =>
    let taken := view (s.queue.tail s.chunk.toNat)
    let left := view (s.queue.shrink s.chunk.toNat).cells
    taken ++ left = left ++ taken
  | _ => True

instance [DecidableEq ρ] (view : List β → List ρ) (s : Pipe ρ β) (a : Act ρ) :
    Decidable (Exchangeable view s a) := match a with
  | .dequeue => inferInstanceAs (Decidable (_ = _))
  | .notify _ | .enter | .testEmpty | .testLong | .setLimit | .upload _ => isTrue trivial

theorem stepInOrder {l : Limits} (limit : 0 ≤ l.maxDataLen) {s a t} (sound : Sound l s)
    (ordered : InOrder (ofKey key k) key k s) (h : step l (fun c => [c]) s a = some t) :
    InOrder (ofKey key k) key k t ↔ Exchangeable (ofKey key k) s a := by
  cases a with
  | notify call =>
    obtain rfl := stepNotify h
    simp only [InOrder,Exchangeable,appendCells,ofKeyAppend,iff_true] at *
    rw [← List.append_assoc,ordered]
  | enter =>
    obtain ⟨-,rfl⟩ := stepEnter h
    simp only [Exchangeable,iff_true]
    exact ordered
  | testEmpty =>
    obtain ⟨-,rfl⟩ := stepTestEmpty h
    simp only [Exchangeable,iff_true]
    exact ordered
  | testLong =>
    obtain ⟨-,rfl⟩ := stepTestLong h
    simp only [Exchangeable,iff_true]
    split <;> exact ordered
  | setLimit =>
    obtain ⟨-,rfl⟩ := stepSetLimit h
    simp only [Exchangeable,iff_true]
    exact ordered
  | dequeue =>
    obtain ⟨here,rfl⟩ := stepDequeue limit sound h
    have unsent := sound.unsent (by simp [here]) (by simp [here])
    have parts := congrArg (ofKey key k) (shrinkTail s.queue s.chunk.toNat)
    rw [ofKeyAppend] at parts
    simp only [InOrder,unsent,Option.getD_none,ofKeyNil,List.append_nil] at ordered
    simp only [InOrder,Exchangeable,Option.getD_some]
    rw [← ordered,← parts,List.append_assoc]
    exact List.append_right_inj _
  | upload reply =>
    obtain ⟨body,here,pending,rfl⟩ := stepUpload h
    simp only [Exchangeable,iff_true]
    simp only [InOrder,pending,Option.getD_some] at ordered
    split
    · simp [InOrder,← ordered]
    · simpa only [InOrder,pending,Option.getD_some] using ordered

def recordsOf (id : Packet size) (body : Bytes) : List (Notice size) :=
  ofKey Prod.fst id ((decodeBody size body).getD [])

theorem recordsOfBlocks (id : Packet size) (calls : List (Notice size)) :
    recordsOf id (calls.flatMap record) = ofKey Prod.fst id calls := by
  rw [recordsOf,decodeBodyReads]; rfl

theorem inOrderRecords (id : Packet size) {s : Pipe (Notice size) UInt8} {r}
    (refines : Refines record (requestSize size) s r) :
    InOrder (recordsOf id) Prod.fst id s ↔ InOrder (ofKey Prod.fst id) Prod.fst id r := by
  have acked : s.acked.flatMap (recordsOf id) = r.acked.flatMap (ofKey Prod.fst id) := by
    rw [refines.acked,List.flatMap_map]
    simp only [recordsOfBlocks]
  have pending : recordsOf id (s.sendBuf.getD []) = ofKey Prod.fst id (r.sendBuf.getD []) := by
    rw [refines.sendBuf]
    cases r.sendBuf with
    | none => rfl
    | some calls => exact recordsOfBlocks id calls
  unfold InOrder
  rw [acked,pending,refines.queue,recordsOfBlocks,refines.calls]

theorem exchangeableRecords {l : Limits} (limit : (requestSize size : Int) ≤ l.maxDataLen)
    (id : Packet size) {s t : Pipe (Notice size) UInt8} {r a} (whole : Whole l s r)
    (cut : WholeCut l (requestSize size) s a) (h : step l record s a = some t) :
    Exchangeable (recordsOf id) s a ↔ Exchangeable (ofKey Prod.fst id) r a := by
  cases a <;> try exact Iff.rfl
  obtain ⟨here,-⟩ := stepDequeue (by omega) whole.sound h
  obtain ⟨count,_⟩ := chunkCount recordLength (by unfold requestSize; omega) limit whole.sound here
    whole.refines cut
  simp only [Exchangeable,count,tailBlocks recordLength whole.refines.queue,
    shrinkBlocks recordLength whole.refines.queue,recordsOfBlocks]

theorem inOrderIffExchangeable {conf : Conf} (positive : 0 < (limits conf).maxDataLen)
    (multiple : (requestSize size : Int) ∣ (limits conf).maxDataLen) (id : Packet size)
    (acts : List (Act (Notice size))) :
    Runs.Always (step (limits conf) record) (InOrder (recordsOf id) Prod.fst id) initial acts ↔
      Runs.Meets (step (limits conf) record) (Exchangeable (recordsOf id)) initial acts := by
  have limit : (requestSize size : Int) ≤ (limits conf).maxDataLen := Int.le_of_dvd positive multiple
  have cut (s : Pipe (Notice size) UInt8) (a) : WholeCut (limits conf) (requestSize size) s a := by
    cases a <;> first | trivial | exact .inr multiple
  refine Runs.alwaysIffMeets
    (I := fun s => ∃ r, Whole (limits conf) s r ∧ InOrder (ofKey Prod.fst id) Prod.fst id r)
    ?_ ?_ ?_ ⟨initial,initialWhole _,rfl⟩ acts
  · rintro s ⟨r,whole,ordered⟩
    exact (inOrderRecords id whole.refines).mpr ordered
  · rintro s a t ⟨r,whole,ordered⟩ exchange h
    obtain ⟨r',moved,later⟩ := stepWhole limit whole (cut s a) h
    have same := exchangeableRecords limit id whole (cut s a) h
    exact ⟨r',later,(stepInOrder (inRecordsLimit limit) whole.soundRecords ordered moved).mpr
      (same.mp exchange)⟩
  · rintro s a t ⟨r,whole,ordered⟩ exchange h kept
    obtain ⟨r',moved,later⟩ := stepWhole limit whole (cut s a) h
    have same := exchangeableRecords limit id whole (cut s a) h
    exact exchange (same.mpr ((stepInOrder (inRecordsLimit limit) whole.soundRecords ordered
      moved).mp ((inOrderRecords id later.refines).mp kept)))

def delivered (id : Packet size) (s : Pipe (Notice size) UInt8) : List (Notice size) :=
  s.acked.flatMap (recordsOf id)

/-- The acknowledged, pending and queued records of a student follow each other in the order
of their notifications exactly if no cut takes a part of them that the rest should precede;
then those delivered are the first ones notified. -/
theorem deliveredInOrder (conf : Conf) (positive : 0 < (limits conf).maxDataLen)
    (multiple : (requestSize size : Int) ∣ (limits conf).maxDataLen) (id : Packet size)
    (acts : List (Act (Notice size))) :
    (Runs.Always (step (limits conf) record) (InOrder (recordsOf id) Prod.fst id) initial acts ↔
      Runs.Meets (step (limits conf) record) (Exchangeable (recordsOf id)) initial acts) ∧
    (Runs.Meets (step (limits conf) record) (Exchangeable (recordsOf id)) initial acts →
      ∀ s, Runs.exec (step (limits conf) record) initial acts = some s →
        delivered id s <+: ofKey Prod.fst id s.calls) := by
  have ordered := inOrderIffExchangeable positive multiple id acts
  refine ⟨ordered,fun exchange s run => ?_⟩
  have here := Runs.alwaysLast (ordered.mpr exchange) run
  rw [InOrder,List.append_assoc] at here
  exact ⟨_,here⟩

def oneRecord : Conf :=
  addConfig (addConfig [] (ascii "cloud.ok_response") (ascii "OK")) (ascii "http.max_data_len") (ascii "4")

def card : Packet 1 := oneByte 7

def inThenOut : List (Act (Notice 1)) :=
  [.notify (card,true),.notify (card,false),.enter,.testEmpty,.testLong,.setLimit,.dequeue,
    .upload ⟨2,some (ascii "OK")⟩,.enter,.testEmpty,.testLong,.dequeue,.upload ⟨2,some (ascii "OK")⟩]

def inAckOut : List (Act (Notice 1)) :=
  [.notify (card,true),.enter,.testEmpty,.testLong,.dequeue,.upload ⟨-1,none⟩,.enter,
    .upload ⟨2,some (ascii "OK")⟩,.notify (card,false),.enter,.testEmpty,.testLong,.dequeue,
    .upload ⟨2,some (ascii "OK")⟩]

theorem deliveredInOrderAcked : ∃ s,
    Runs.exec (step (limits oneRecord) record) initial inAckOut = some s ∧
    delivered card s = [(card,true),(card,false)] ∧
    Runs.Always (step (limits oneRecord) record) (InOrder (recordsOf card) Prod.fst card) initial inAckOut ∧
    delivered card s <+: ofKey Prod.fst card s.calls := by
  have seen : (Runs.exec (step (limits oneRecord) record) initial inAckOut).map (delivered card) =
      some [(card,true),(card,false)] := by decide
  obtain ⟨s,run,same⟩ := Option.map_eq_some_iff.mp seen
  have exchange : Runs.Meets (step (limits oneRecord) record) (Exchangeable (recordsOf card)) initial
      inAckOut := by decide
  have ordered := deliveredInOrder oneRecord (by decide) (by decide) card inAckOut
  exact ⟨s,run,same,ordered.1.mpr exchange,ordered.2 exchange s run⟩

theorem outBeforeIn :
    ¬ ∀ (size : Nat) (conf : Conf) (id : Packet size), 0 < (limits conf).maxDataLen →
      (requestSize size : Int) ∣ (limits conf).maxDataLen →
      ∀ (acts : List (Act (Notice size))) (s : Pipe (Notice size) UInt8),
        Runs.exec (step (limits conf) record) initial acts = some s →
        (delivered id s).Sublist (ofKey Prod.fst id s.calls) := by
  intro claim
  have seen : (Runs.exec (step (limits oneRecord) record) initial inThenOut).map
      (fun s => (delivered card s,ofKey Prod.fst card s.calls)) =
      some ([(card,false),(card,true)],[(card,true),(card,false)]) := by decide
  obtain ⟨s,run,same⟩ := Option.map_eq_some_iff.mp seen
  obtain ⟨sent,called⟩ := Prod.mk.inj same
  have order := claim 1 oneRecord card (by decide) (by decide) inThenOut s run
  rw [sent,called] at order
  exact absurd order (by decide)

end RfidStation.DeliveryOrder
