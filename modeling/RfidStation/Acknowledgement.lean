import RfidStation.ReturnValue

/-! When a batch is discarded only for a complete answer that is the configured text. Nothing
is assumed of the response but the results of recv up to the end of the loop. -/
namespace RfidStation.Acknowledgement
open Cstr Config Search HttpPost Segments NotifyQueue Conservation CloudSend ReturnValue

/- What has come of the response when the loop ends. -/
def arrived (conf : Conf) (startTime : UInt32) : List Event → Option (List Bytes)
  | [] => none
  | ⟨now,result⟩ :: rest =>
    if late conf startTime now then some []
    else match result with
      | .interrupted => arrived conf startTime rest
      | .failed => some []
      | .closed => some []
      | .data chunk => (arrived conf startTime rest).map (chunk.val :: ·)

def arrivedOf (conf : Conf) (startTime : UInt32) : Request → Option (List Bytes)
  | .unsent => some []
  | .answered events => arrived conf startTime events

/- What the loop makes of the chunks that have come, where it returns. -/
inductive Answer : List Bytes → Bytes → Prop where
  | none {cs} (unread : Unread false start.buf cs) : Answer cs []
  | body {before front payload after} (first : FirstBlank front)
      (unread : Unread false start.buf before)
      (status : statusShown false start.buf (before ++ [front ++ blankLine ++ payload]) = true) :
      Answer (before ++ (front ++ blankLine ++ payload) :: after) (payload ++ after.flatten)

/- `rest` is what has not come of the response. -/
def Genuine (l : Limits) (cs : List Bytes) (rest : Bytes) : Prop :=
  rest = [] ∧ bodyOf cs.flatten = cstr l.okResponse

theorem receiveArrived {conf : Conf} {startTime : UInt32} {events : List Event} {cs : List Bytes}
    (s : Reader) (ended : arrived conf startTime events = some cs) :
    match feed s cs with
    | .next t => ∃ ending, receive conf startTime s events =
        some (.returned t.totalbytes t.recvbuf ending)
    | .stop outcome => receive conf startTime s events = some outcome := by
  induction events generalizing s cs with
  | nil => cases ended
  | cons e rest ih =>
    obtain ⟨now,result⟩ := e
    unfold arrived at ended
    unfold receive
    split at ended
    · rename_i overdue
      obtain rfl := Option.some.inj ended
      rw [if_pos overdue]
      exact ⟨.deadline,rfl⟩
    · rename_i early
      rw [if_neg early]
      cases result with
      | interrupted => exact ih s ended
      | failed =>
        obtain rfl := Option.some.inj ended
        exact ⟨.failed,rfl⟩
      | closed =>
        obtain rfl := Option.some.inj ended
        exact ⟨.closed,rfl⟩
      | data chunk =>
        obtain ⟨later,more,rfl⟩ := Option.map_eq_some_iff.mp ended
        simp only [feed]
        cases onData s chunk.val with
        | stop outcome => rfl
        | next t => exact ih t more

theorem cloudSendArrived {conf : Conf} {startTime : UInt32} {request : Request} {cs : List Bytes}
    (ended : arrivedOf conf startTime request = some cs) :
    cloudSend conf startTime request = match feed start cs with
      | .next t => some (copyReply t.totalbytes t.recvbuf)
      | .stop _ => none := by
  cases request with
  | unsent =>
    obtain rfl := Option.some.inj ended
    rfl
  | answered events =>
    have result := receiveArrived start ended
    rw [cloudSend]
    cases fed : feed start cs with
    | next t =>
      rw [fed] at result
      obtain ⟨ending,returned⟩ := result
      rw [returned]
    | stop outcome =>
      rw [fed] at result
      rw [result]
      rcases feedStop fed with rfl | rfl <;> rfl

theorem feedAnswer {cs : List Bytes} {t : Reader} (fed : feed start cs = .next t) :
    ∃ got, Answer cs got ∧ Carries (copyReply t.totalbytes t.recvbuf) got := by
  obtain ⟨kept,unread⟩ | ⟨before,front,payload,after,rfl,first,unread,status,stored⟩ :=
    feedNext rfl fed
  · exact ⟨[],.none unread,nothingCarries kept⟩
  · exact ⟨_,.body first unread status,storingCarries stored⟩

theorem answerFed {cs : List Bytes} {got : Bytes} (answer : Answer cs got) :
    ∃ t, feed start cs = .next t ∧ Carries (copyReply t.totalbytes t.recvbuf) got := by
  cases answer with
  | none unread =>
    obtain ⟨t,fed,kept⟩ := feedSilent unread
    exact ⟨t,fed,nothingCarries kept⟩
  | body first unread status =>
    obtain ⟨t,fed,stored⟩ := feedHeaderEnd first unread status _
    exact ⟨t,fed,storingCarries stored⟩

section Commit
variable {ρ : Type} {enc : ρ → Bytes} {body : Bytes} {s t : Pipe ρ UInt8}

/- An upload of the pending batch; `none` where the process does not come back from it. -/
def commit (conf : Conf) (enc : ρ → Bytes) (startTime : UInt32) (s : Pipe ρ UInt8)
    (request : Request) : Option (Pipe ρ UInt8) :=
  (cloudSend conf startTime request).bind fun reply => step (limits conf) enc s (.upload reply)

/-- A batch is dropped only for a complete answer that is the configured text, and is
otherwise kept as it is and sent again. -/
structure DropsOnlyOnAck (l : Limits) (enc : ρ → Bytes) (cs : List Bytes) (rest body : Bytes)
    (s : Pipe ρ UInt8) (result : Option (Pipe ρ UInt8)) : Prop where
  genuine : ∀ t, result = some t → t.sendBuf = none → Genuine l cs rest
  kept : ¬ Genuine l cs rest → ∃ t, result = some t ∧ t.sendBuf = some body ∧
    t.sendLen = s.sendLen ∧ SentAgain l enc body t

theorem uploadAcked {l : Limits} {reply : Reply} (acked : acknowledged l reply = true)
    (h : step l enc s (.upload reply) = some t) : t.sendBuf = none := by
  obtain ⟨other,-,-,rfl⟩ := stepUpload h
  rw [if_pos acked]

theorem uploadKept {l : Limits} {reply : Reply} (pending : s.sendBuf = some body)
    (refused : ¬ acknowledged l reply = true) (h : step l enc s (.upload reply) = some t) :
    t.sendBuf = some body ∧ t.sendLen = s.sendLen ∧ SentAgain l enc body t := by
  obtain ⟨other,-,-,rfl⟩ := stepUpload h
  rw [if_neg refused]
  exact ⟨pending,rfl,holdingSentAgain ⟨pending,.inl rfl⟩⟩

theorem uploadSteps {l : Limits} (here : s.pc = .send) (pending : s.sendBuf = some body)
    (reply : Reply) : ∃ t, step l enc s (.upload reply) = some t := by
  simp only [step,here,pending]
  exact ⟨_,rfl⟩

theorem commitReturns {conf : Conf} {startTime : UInt32} {request : Request} {cs : List Bytes}
    (ended : arrivedOf conf startTime request = some cs) {t : Reader}
    (fed : feed start cs = .next t) : commit conf enc startTime s request =
      step (limits conf) enc s (.upload (copyReply t.totalbytes t.recvbuf)) := by
  rw [commit,cloudSendArrived ended,fed]
  rfl

theorem commitStops {conf : Conf} {startTime : UInt32} {request : Request} {cs : List Bytes}
    (ended : arrivedOf conf startTime request = some cs) {outcome : Outcome}
    (fed : feed start cs = .stop outcome) : commit conf enc startTime s request = none := by
  rw [commit,cloudSendArrived ended,fed]
  rfl

theorem dropsOnlyOnAckIff {conf : Conf} {startTime : UInt32} {request : Request}
    {cs : List Bytes} (ended : arrivedOf conf startTime request = some cs) (rest : Bytes)
    (here : s.pc = .send) (pending : s.sendBuf = some body) :
    DropsOnlyOnAck (limits conf) enc cs rest body s (commit conf enc startTime s request) ↔
      Genuine (limits conf) cs rest ∨
      ∃ got, Answer cs got ∧ ¬ PassesFor (cstr (limits conf).okResponse) got := by
  constructor
  · intro drops
    by_cases genuine : Genuine (limits conf) cs rest
    · exact .inl genuine
    · refine .inr ?_
      obtain ⟨t,result,kept,-⟩ := drops.kept genuine
      cases fed : feed start cs with
      | stop outcome => rw [commitStops ended fed] at result; cases result
      | next u =>
        rw [commitReturns ended fed] at result
        obtain ⟨got,answer,carries⟩ := feedAnswer fed
        refine ⟨got,answer,fun passes => ?_⟩
        have dropped := uploadAcked ((acknowledgedIff carries).mpr passes) result
        exact Option.some_ne_none body (kept.symm.trans dropped)
  · rintro (genuine | ⟨got,answer,fails⟩)
    · exact ⟨fun _ _ _ => genuine,fun different => (different genuine).elim⟩
    · obtain ⟨u,fed,carries⟩ := answerFed answer
      obtain ⟨t,result⟩ : ∃ t, step (limits conf) enc s
          (.upload (copyReply u.totalbytes u.recvbuf)) = some t := uploadSteps here pending _
      have kept := uploadKept pending (mt (acknowledgedIff carries).mp fails) result
      rw [commitReturns ended fed,result]
      refine ⟨?_,fun _ => ⟨t,rfl,kept⟩⟩
      intro _ same dropped
      obtain rfl := Option.some.inj same
      exact absurd (kept.1.symm.trans dropped) (Option.some_ne_none body)

end Commit

def okConf : Conf := [(ascii "cloud.ok_response",ascii "OK"),(ascii "http.timeout",ascii "10"),
  (ascii "http.max_data_len",ascii "100")]

def okHead : Bytes := ascii "HTTP/1.1 200 OK" ++ blankLine

def inOneChunk (body : Bytes) (fits : (okHead ++ body).length ≤ bufSize) : Request :=
  .answered [⟨0,.data ⟨okHead ++ body,by simp [okHead,blankLine,ascii],fits⟩⟩,⟨1,.closed⟩]

theorem oneChunkAnswer (body : Bytes)
    (status : shows okLine (overlay (okHead ++ body) start.buf) = true) :
    Answer [okHead ++ body] body := by
  have first : FirstBlank (ascii "HTTP/1.1 200 OK") := ⟨by decide +kernel,by decide +kernel⟩
  have answer : Answer ([] ++ (okHead ++ body) :: []) (body ++ [].flatten) :=
    .body first trivial status
  rwa [List.flatten_nil,List.append_nil] at answer

def oneNotice : List (Act (Records.Notice 1)) :=
  [.notify (Records.oneByte 7,true),.enter,.testEmpty,.testLong,.dequeue]

def sending : Pipe (Records.Notice 1) UInt8 where
  queue := ⟨[],8,by decide⟩
  sendBuf := some (ascii "071.")
  sendLen := 4
  pc := .send
  calls := [(Records.oneByte 7,true)]
  uploads := []
  acked := []

theorem refusalKept : DropsOnlyOnAck (limits okConf) Records.record [okHead ++ ascii "NO"] []
    (ascii "071.") sending
    (commit okConf Records.record 0 sending (inOneChunk (ascii "NO") (by decide +kernel))) :=
  (dropsOnlyOnAckIff (by decide +kernel) [] rfl rfl).mpr (.inr ⟨ascii "NO",
    oneChunkAnswer _ (by decide +kernel),by unfold PassesFor; decide +kernel⟩)

theorem shortAnswerDrops :
    Runs.exec (step (limits okConf) Records.record) initial oneNotice = some sending ∧
    arrivedOf okConf 0 (inOneChunk (ascii "O") (by decide +kernel)) = some [okHead ++ ascii "O"] ∧
    ¬ DropsOnlyOnAck (limits okConf) Records.record [okHead ++ ascii "O"] [] (ascii "071.") sending
      (commit okConf Records.record 0 sending (inOneChunk (ascii "O") (by decide +kernel))) := by
  refine ⟨by decide +kernel,by decide +kernel,fun drops => ?_⟩
  have dropped : commit okConf Records.record 0 sending
      (inOneChunk (ascii "O") (by decide +kernel)) = some {sending with
        sendBuf := none, pc := .idle, uploads := [ascii "071."], acked := [ascii "071."]} := by
    decide +kernel
  exact absurd (drops.genuine _ dropped rfl).2 (by decide +kernel)

end RfidStation.Acknowledgement
