import RfidStation.NotifyQueue
import RfidStation.Records

/-! Conservation of the notification pipeline over whole runs. Every element that notify
appended is numbered by its position in the appended stream; the numbers tell the elements
apart, so that a permutation of them says that none is lost, duplicated or changed. -/
namespace RfidStation.Conservation
open Cstr Config Buffers NotifyQueue
open Records

variable {ρ β : Type}

def appended (enc : ρ → List β) (s : Pipe ρ β) : List β := s.calls.flatMap enc

/- The three places in numbered form: the acknowledged bodies, the pending send_buf and the
queue. Together they are the appended stream, and each keeps its order. -/
structure Places (enc : ρ → List β) (s : Pipe ρ β) where
  acked : List (List (β × Nat))
  pending : List (β × Nat)
  queued : List (β × Nat)
  ackedIs : acked.map (List.map Prod.fst) = s.acked
  pendingIs : pending.map Prod.fst = s.sendBuf.getD []
  queuedIs : queued.map Prod.fst = s.queue.cells
  all : (acked.flatten ++ pending ++ queued).Perm (appended enc s).zipIdx
  order : ∀ place ∈ pending :: queued :: acked, place.Sublist (appended enc s).zipIdx

def EachOnce (enc : ρ → List β) (s : Pipe ρ β) : Prop :=
  Nonempty (Places enc s) ∧ ∀ body ∈ s.uploads, body.Sublist (appended enc s)

theorem callsOnce {s : Pipe ρ ρ} (once : EachOnce (fun call => [call]) s) :
    (s.acked.flatten ++ s.sendBuf.getD [] ++ s.queue.cells).Perm s.calls := by
  obtain ⟨⟨places⟩,-⟩ := once
  have all := places.all.map Prod.fst
  rw [List.map_append,List.map_append,List.map_flatten,places.ackedIs,places.pendingIs,places.queuedIs,
    List.zipIdx_map_fst,appended,List.flatMap_singleton'] at all
  exact all

theorem initialEachOnce (enc : ρ → List β) : EachOnce enc (initial : Pipe ρ β) :=
  ⟨⟨[],[],[],rfl,rfl,rfl,List.Perm.refl _,by simp⟩,by simp [initial]⟩

theorem pendingSublist {enc : ρ → List β} {s : Pipe ρ β} {body} (places : Places enc s)
    (pending : s.sendBuf = some body) : body.Sublist (appended enc s) := by
  have same := places.pendingIs
  rw [pending] at same
  have order := (places.order places.pending (by simp)).map Prod.fst
  rw [same,List.zipIdx_map_fst] at order
  exact order

theorem notifyEachOnce {enc : ρ → List β} {s : Pipe ρ β} (h : EachOnce enc s) (call : ρ) :
    EachOnce enc {s with queue := s.queue.append (enc call), calls := s.calls ++ [call]} := by
  obtain ⟨⟨p⟩,uploads⟩ := h
  have stream : s.calls.flatMap enc ++ enc call = (s.calls ++ [call]).flatMap enc := by simp
  have numbers : (appended enc s).zipIdx ++ (enc call).zipIdx (appended enc s).length =
      ((s.calls ++ [call]).flatMap enc).zipIdx := by
    rw [← stream,List.zipIdx_append,Nat.zero_add]; rfl
  refine ⟨⟨p.acked,p.pending,p.queued ++ (enc call).zipIdx (appended enc s).length,
    p.ackedIs,p.pendingIs,?_,?_,?_⟩,?_⟩
  · simp [p.queuedIs]
  · change List.Perm _ ((s.calls ++ [call]).flatMap enc).zipIdx
    rw [← numbers,← List.append_assoc]
    exact p.all.append_right _
  · intro place mem
    change List.Sublist _ ((s.calls ++ [call]).flatMap enc).zipIdx
    rw [← numbers]
    simp only [List.mem_cons] at mem
    rcases mem with rfl | rfl | mem
    · exact (p.order _ (by simp)).trans (List.sublist_append_left _ _)
    · exact (p.order p.queued (by simp)).append (List.Sublist.refl _)
    · exact (p.order _ (by simp [mem])).trans (List.sublist_append_left _ _)
  · intro body mem
    change List.Sublist _ ((s.calls ++ [call]).flatMap enc)
    rw [← stream]
    exact (uploads body mem).trans (List.sublist_append_left _ _)

theorem dequeueEachOnce {enc : ρ → List β} {s t : Pipe ρ β} {n : Nat} (h : EachOnce enc s)
    (unsent : s.sendBuf = none) (queue : t.queue = s.queue.shrink n)
    (sendBuf : t.sendBuf = some (s.queue.tail n)) (calls : t.calls = s.calls)
    (uploads : t.uploads = s.uploads) (acked : t.acked = s.acked) : EachOnce enc t := by
  obtain ⟨⟨p⟩,bodies⟩ := h
  have same : appended enc t = appended enc s := by rw [appended,calls]; rfl
  have nothing : p.pending = [] := by simpa [unsent] using p.pendingIs
  have cells : s.queue.cells.length = p.queued.length := by rw [← p.queuedIs,List.length_map]
  have queued := p.order p.queued (by simp)
  refine ⟨⟨p.acked,p.queued.drop (p.queued.length - n),p.queued.take (p.queued.length - n),
    ?_,?_,?_,?_,?_⟩,?_⟩
  · rw [acked]; exact p.ackedIs
  · rw [sendBuf,List.map_drop,p.queuedIs,← cells]; rfl
  · rw [queue,List.map_take,p.queuedIs,← cells]; rfl
  · have all := p.all
    rw [nothing,List.append_nil] at all
    rw [same,List.append_assoc]
    refine List.Perm.trans (List.Perm.append_left _ ?_) all
    exact List.perm_append_comm.trans (List.Perm.of_eq (List.take_append_drop _ _))
  · intro place mem
    rw [same]
    simp only [List.mem_cons] at mem
    rcases mem with rfl | rfl | mem
    · exact (List.drop_sublist _ _).trans queued
    · exact (List.take_sublist _ _).trans queued
    · exact p.order place (by simp [mem])
  · rw [uploads,same]; exact bodies

theorem ackEachOnce {enc : ρ → List β} {s t : Pipe ρ β} {body} (h : EachOnce enc s)
    (pending : s.sendBuf = some body) (queue : t.queue = s.queue) (sendBuf : t.sendBuf = none)
    (calls : t.calls = s.calls) (uploads : t.uploads = s.uploads ++ [body])
    (acked : t.acked = s.acked ++ [body]) : EachOnce enc t := by
  obtain ⟨⟨p⟩,bodies⟩ := h
  have same : appended enc t = appended enc s := by rw [appended,calls]; rfl
  have inside : p.pending.map Prod.fst = body := by rw [p.pendingIs,pending]; rfl
  refine ⟨⟨p.acked ++ [p.pending],[],p.queued,?_,?_,?_,?_,?_⟩,?_⟩
  · rw [acked,List.map_append,p.ackedIs,List.map_singleton,inside]
  · rw [sendBuf]; rfl
  · rw [queue]; exact p.queuedIs
  · rw [same]
    simpa using p.all
  · intro place mem
    rw [same]
    simp only [List.mem_cons,List.mem_append,List.not_mem_nil,or_false] at mem
    rcases mem with rfl | rfl | mem | rfl
    · exact List.nil_sublist _
    · exact p.order _ (by simp)
    · exact p.order place (by simp [mem])
    · exact p.order _ (by simp)
  · intro b mem
    rw [same]
    rw [uploads] at mem
    rcases List.mem_append.mp mem with old | new
    · exact bodies b old
    · rw [List.mem_singleton.mp new]; exact pendingSublist p pending

theorem stepEachOnce {l : Limits} (limit : 0 ≤ l.maxDataLen) {enc : ρ → List β} {s a t}
    (sound : Sound l s) (once : EachOnce enc s) (h : step l enc s a = some t) :
    EachOnce enc t := by
  have plain {queue sendLen pc} (same : queue = s.queue) :
      EachOnce enc ⟨queue,s.sendBuf,sendLen,pc,s.calls,s.uploads,s.acked⟩ := by
    subst queue
    obtain ⟨⟨p⟩,bodies⟩ := once
    exact ⟨⟨⟨p.acked,p.pending,p.queued,p.ackedIs,p.pendingIs,p.queuedIs,p.all,p.order⟩⟩,bodies⟩
  cases a with
  | notify call =>
    obtain rfl := stepNotify h
    exact notifyEachOnce once call
  | enter =>
    obtain ⟨-,rfl⟩ := stepEnter h
    exact plain rfl
  | testEmpty =>
    obtain ⟨-,rfl⟩ := stepTestEmpty h
    exact plain rfl
  | testLong =>
    obtain ⟨-,rfl⟩ := stepTestLong h
    split <;> exact plain rfl
  | setLimit =>
    obtain ⟨-,rfl⟩ := stepSetLimit h
    exact plain rfl
  | dequeue =>
    obtain ⟨here,rfl⟩ := stepDequeue limit sound h
    exact dequeueEachOnce once (sound.unsent (by simp [here]) (by simp [here])) rfl rfl rfl rfl rfl
  | upload reply =>
    obtain ⟨body,here,pending,rfl⟩ := stepUpload h
    split
    · exact ackEachOnce once pending rfl rfl rfl rfl rfl
    · obtain ⟨⟨p⟩,bodies⟩ := once
      have offered := pendingSublist p pending
      refine ⟨⟨⟨p.acked,p.pending,p.queued,p.ackedIs,p.pendingIs,p.queuedIs,p.all,p.order⟩⟩,?_⟩
      intro b mem
      rcases List.mem_append.mp mem with old | new
      · exact bodies b old
      · rw [List.mem_singleton.mp new]; exact offered

theorem runEachOnce {l : Limits} (limit : 0 ≤ l.maxDataLen) {enc : ρ → List β} {acts s}
    (run : Runs.exec (step l enc) initial acts = some s) : Sound l s ∧ EachOnce enc s :=
  Runs.invariant (I := fun s => Sound l s ∧ EachOnce enc s)
    (fun _ _ _ h ht => ⟨stepSound limit h.1 ht,stepEachOnce limit h.1 h.2 ht⟩)
    ⟨initialSound l,initialEachOnce enc⟩ run

def repliesIn : List (Act ρ) → List Reply
  | [] => []
  | .upload reply :: rest => reply :: repliesIn rest
  | _ :: rest => repliesIn rest

def passed (l : Limits) (uploads : List (List β)) (replies : List Reply) : List (List β) :=
  ((uploads.zip replies).filter (fun offer => acknowledged l offer.2)).map Prod.fst

structure AckedBy (l : Limits) (s : Pipe ρ β) (replies : List Reply) : Prop where
  each : s.uploads.length = replies.length
  acked : s.acked = passed l s.uploads replies

theorem passedSnoc (l : Limits) {uploads : List (List β)} {replies : List Reply}
    (each : uploads.length = replies.length) (body : List β) (reply : Reply) :
    passed l (uploads ++ [body]) (replies ++ [reply]) =
      passed l uploads replies ++ if acknowledged l reply then [body] else [] := by
  rw [passed,List.zip_append each,List.filter_append,List.map_append]
  refine congrArg (passed l uploads replies ++ ·) ?_
  cases acked : acknowledged l reply <;> simp [acked]

theorem stepAckedBy {l : Limits} {enc : ρ → List β} {s a t} {replies : List Reply}
    (acks : AckedBy l s replies) (h : step l enc s a = some t) :
    AckedBy l t (replies ++ repliesIn [a]) := by
  have kept : AckedBy l s (replies ++ []) := by rwa [List.append_nil]
  cases a with
  | notify call =>
    obtain rfl := stepNotify h
    exact ⟨kept.each,kept.acked⟩
  | enter =>
    obtain ⟨-,rfl⟩ := stepEnter h
    exact ⟨kept.each,kept.acked⟩
  | testEmpty =>
    obtain ⟨-,rfl⟩ := stepTestEmpty h
    exact ⟨kept.each,kept.acked⟩
  | testLong =>
    obtain ⟨-,rfl⟩ := stepTestLong h
    split <;> exact ⟨kept.each,kept.acked⟩
  | setLimit =>
    obtain ⟨-,rfl⟩ := stepSetLimit h
    exact ⟨kept.each,kept.acked⟩
  | dequeue =>
    obtain ⟨-,rfl⟩ := Runs.guarded h
    split <;> exact ⟨kept.each,kept.acked⟩
  | upload reply =>
    obtain ⟨body,-,-,rfl⟩ := stepUpload h
    have snoc := passedSnoc l acks.each body reply
    split
    · rename_i acked
      rw [if_pos acked] at snoc
      exact ⟨by simp [acks.each,repliesIn],by rw [acks.acked]; exact snoc.symm⟩
    · rename_i refused
      rw [if_neg refused,List.append_nil] at snoc
      exact ⟨by simp [acks.each,repliesIn],acks.acked.trans snoc.symm⟩

theorem repliesInCons (a : Act ρ) (rest : List (Act ρ)) :
    repliesIn (a :: rest) = repliesIn [a] ++ repliesIn rest := by
  cases a <;> simp [repliesIn]

theorem runAckedBy {l : Limits} {enc : ρ → List β} (acts : List (Act ρ)) {s t : Pipe ρ β}
    {replies : List Reply} (acks : AckedBy l s replies) (run : Runs.exec (step l enc) s acts = some t) :
    AckedBy l t (replies ++ repliesIn acts) := by
  induction acts generalizing s replies with
  | nil =>
    obtain rfl := Option.some.inj run
    rw [repliesIn,List.append_nil]
    exact acks
  | cons a rest ih =>
    obtain ⟨m,moved,later⟩ := Runs.execCons run
    rw [repliesInCons,← List.append_assoc]
    exact ih (stepAckedBy acks moved) later

theorem initialAckedBy {l : Limits} {enc : ρ → List β} {acts : List (Act ρ)} {s : Pipe ρ β}
    (run : Runs.exec (step l enc) initial acts = some s) : AckedBy l s (repliesIn acts) := by
  have nothing : AckedBy l (initial : Pipe ρ β) [] := ⟨rfl,rfl⟩
  exact runAckedBy acts nothing run

theorem passedSubset (l : Limits) (uploads : List (List β)) (replies : List Reply) :
    passed l uploads replies ⊆ uploads := by
  intro body mem
  obtain ⟨offer,kept,rfl⟩ := List.mem_map.mp mem
  exact (List.of_mem_zip (List.mem_of_mem_filter kept)).1

def callsIn : List (Act ρ) → List ρ
  | [] => []
  | .notify call :: rest => call :: callsIn rest
  | _ :: rest => callsIn rest

def uploadsIn : List (Act ρ) → Nat
  | [] => 0
  | .upload _ :: rest => uploadsIn rest + 1
  | _ :: rest => uploadsIn rest

def Unacknowledged (l : Limits) (acts : List (Act ρ)) : Prop :=
  ∀ reply, Act.upload reply ∈ acts → acknowledged l reply = false

structure Resends (enc : ρ → List β) (body : List β) (s : Pipe ρ β) (acts : List (Act ρ))
    (t : Pipe ρ β) : Prop where
  kept : t.sendBuf = some body
  sent : t.uploads = s.uploads ++ List.replicate (uploadsIn acts) body
  queue : t.queue.cells = s.queue.cells ++ (callsIn acts).flatMap enc

def Holding (body : List β) (s : Pipe ρ β) : Prop :=
  s.sendBuf = some body ∧ (s.pc = .idle ∨ s.pc = .send)

theorem stepResends {l : Limits} {enc : ρ → List β} {s a t body} (holding : Holding body s)
    (noAck : Unacknowledged l [a]) (h : step l enc s a = some t) :
    Holding body t ∧ Resends enc body s [a] t := by
  obtain ⟨pending,at_⟩ := holding
  have elsewhere {pc} (here : s.pc = pc) (idle : pc ≠ .idle) (send : pc ≠ .send) : False := by
    rcases at_ with same | same
    · exact idle (here.symm.trans same)
    · exact send (here.symm.trans same)
  cases a with
  | notify call =>
    obtain rfl := stepNotify h
    exact ⟨⟨pending,at_⟩,pending,by simp [uploadsIn],by simp [callsIn]⟩
  | enter =>
    obtain ⟨-,rfl⟩ := stepEnter h
    exact ⟨⟨pending,.inr (by simp [pending])⟩,pending,by simp [uploadsIn],by simp [callsIn]⟩
  | testEmpty => exact (elsewhere (stepTestEmpty h).1 (by simp) (by simp)).elim
  | testLong => exact (elsewhere (stepTestLong h).1 (by simp) (by simp)).elim
  | setLimit => exact (elsewhere (stepSetLimit h).1 (by simp) (by simp)).elim
  | dequeue => exact (elsewhere (Runs.guarded h).1 (by simp) (by simp)).elim
  | upload reply =>
    obtain ⟨other,here,same,rfl⟩ := stepUpload h
    cases Option.some.inj (pending.symm.trans same)
    rw [noAck reply (by simp),if_neg Bool.false_ne_true]
    exact ⟨⟨pending,.inl rfl⟩,pending,by simp [uploadsIn],by simp [callsIn]⟩

theorem uploadsInCons (a : Act ρ) (rest : List (Act ρ)) :
    uploadsIn (a :: rest) = uploadsIn [a] + uploadsIn rest := by
  cases a <;> simp [uploadsIn,Nat.add_comm]

theorem callsInCons (a : Act ρ) (rest : List (Act ρ)) :
    callsIn (a :: rest) = callsIn [a] ++ callsIn rest := by
  cases a <;> simp [callsIn]

theorem runResends {l : Limits} {enc : ρ → List β} {body} (acts : List (Act ρ)) {s t : Pipe ρ β}
    (holding : Holding body s) (noAck : Unacknowledged l acts)
    (run : Runs.exec (step l enc) s acts = some t) :
    Holding body t ∧ Resends enc body s acts t := by
  induction acts generalizing s with
  | nil =>
    cases Option.some.inj run
    exact ⟨holding,holding.1,by simp [uploadsIn],by simp [callsIn]⟩
  | cons a rest ih =>
    obtain ⟨m,hm,later⟩ := Runs.execCons run
    obtain ⟨held,first⟩ := stepResends holding
      (fun reply mem => noAck reply (List.mem_cons.mpr (.inl (List.mem_singleton.mp mem)))) hm
    obtain ⟨holding,last⟩ := ih held (fun reply mem => noAck reply (List.mem_cons_of_mem _ mem)) later
    refine ⟨holding,last.kept,?_,?_⟩
    · rw [last.sent,first.sent,List.append_assoc,uploadsInCons a rest,List.replicate_add]
    · rw [last.queue,first.queue,List.append_assoc,callsInCons a rest,List.flatMap_append]

theorem soundHolding {l : Limits} {s : Pipe ρ β} {body} (sound : Sound l s)
    (pending : s.sendBuf = some body) : Holding body s := by
  refine ⟨pending,Classical.byContradiction (fun elsewhere => ?_)⟩
  have unsent := sound.unsent (fun here => elsewhere (.inl here)) (fun here => elsewhere (.inr here))
  rw [pending] at unsent
  contradiction

/-- Notified bytes are conserved, and a body is resent as it is until its acknowledgement; a body
counts as acknowledged exactly if it was uploaded with a reply that passes. -/
theorem pipelineConserves {size : Nat} (conf : Conf) (limit : 0 ≤ (limits conf).maxDataLen)
    (acts : List (Act (Notice size))) (s : Pipe (Notice size) UInt8)
    (run : Runs.exec (step (limits conf) record) initial acts = some s) :
    EachOnce record s ∧ AckedBy (limits conf) s (repliesIn acts) ∧
    (∀ body ∈ s.uploads, cstr body = body) ∧ ∀ body, s.sendBuf = some body → ∀ later t,
      Runs.exec (step (limits conf) record) s later = some t →
      Unacknowledged (limits conf) later → Resends record body s later t := by
  obtain ⟨sound,once⟩ := runEachOnce limit run
  refine ⟨once,initialAckedBy run,fun body mem => cstrWhole (fun b inside => ?_),
    fun body pending later t continues noAck =>
      (runResends later (soundHolding sound pending) noAck continues).2⟩
  obtain ⟨call,_,written⟩ := List.mem_flatMap.mp ((once.2 body mem).subset inside)
  exact recordNonzero call b written

def fiveBytes : Conf := addConfig [] (ascii "http.max_data_len") (ascii "5")

def backlog : List (Act (Notice 1)) :=
  [.notify (oneByte 7,true),.notify (oneByte 9,false),.enter,.testEmpty,.testLong,.setLimit,
    .dequeue,.upload ⟨-1,none⟩]

theorem pipelineConservesBacklog :
    ∃ s, Runs.exec (step (limits fiveBytes) record) initial backlog = some s ∧
      s.uploads = [ascii ".090."] ∧ EachOnce record s ∧
      AckedBy (limits fiveBytes) s [⟨-1,none⟩] := by
  have seen : (Runs.exec (step (limits fiveBytes) record) initial backlog).map Pipe.uploads =
      some [ascii ".090."] := by decide
  obtain ⟨s,run,uploads⟩ := Option.map_eq_some_iff.mp seen
  have conserves := pipelineConserves fiveBytes (by decide) backlog s run
  exact ⟨s,run,uploads,conserves.1,conserves.2.1⟩

end RfidStation.Conservation
