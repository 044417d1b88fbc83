import RfidStation.HttpRequest

/-! What http_post and cloud_send return, and when it is what their comment promises. Chunks
are arbitrary bytes here: both searches end at the first NUL of `buf`. -/
namespace RfidStation.ReturnValue
open Cstr Config Search HttpPost Segments HttpRequest

/- The chunks of a response that comes to the end of its connection in time. -/
def response (conf : Conf) (startTime : UInt32) : List Event → Option (List Bytes)
  | [] => none
  | ⟨now,result⟩ :: rest =>
    if late conf startTime now then none
    else match result with
      | .interrupted => response conf startTime rest
      | .failed => none
      | .closed => some []
      | .data chunk => (response conf startTime rest).map (chunk.val :: ·)

def statusOf (stream : Bytes) : Bytes :=
  Lines.before 32 (Lines.after 32 (Lines.before 13 stream))

def bodyOf : Bytes → Bytes
  | [] => []
  | b :: rest =>
      if blankLine.isPrefixOf (b :: rest) then (b :: rest).drop blankLine.length else bodyOf rest

structure Succeeded (conf : Conf) (text : Bytes) (calls : Calls) (cs : List Bytes) : Prop where
  connected : connected calls = true
  sent : ∃ n, calls.sent = some n ∧ text.length ≤ n
  complete : response conf calls.startTime calls.events = some cs
  status : statusOf cs.flatten = ascii "200"

structure Truthful (conf : Conf) (text : Bytes) (calls : Calls) (result : Option Int) : Prop where
  failure : (¬ ∃ cs, Succeeded conf text calls cs) → result = some (-1)
  success : ∀ cs, Succeeded conf text calls cs → result = some (bodyOf cs.flatten).length

-- `totalbytes` is an int.
def returned (totalbytes : Nat) : Option Int :=
  if totalbytes < 2147483648 then some totalbytes else none

def postReturns (conf : Conf) (host path body : Bytes) (len : Nat) (calls : Calls) : Option Int :=
  match httpPost conf host path body len calls with
  | some (.returned totalbytes _ _) => returned totalbytes
  | _ => none

def sendReturns (conf : Conf) (path buf : Bytes) (calls : Calls) : Option Int :=
  (cloudSendCalls conf path buf calls).bind (fun reply => returned reply.received.toNat)

def shows (needle buf : Bytes) : Bool := decide (needle <:+: cstr buf)

/-- Up to the first NUL, `buf` shows no blank line once it has shown the status line, and it
always holds a NUL. -/
def Unread : Bool → Bytes → List Bytes → Prop
  | _, _, [] => True
  | isok, buf, chunk :: rest =>
    0 ∈ overlay chunk buf ∧
    ((isok || shows okLine (overlay chunk buf)) = true → shows blankLine (overlay chunk buf) = false) ∧
    Unread (isok || shows okLine (overlay chunk buf)) (overlay chunk buf) rest

def statusShown : Bool → Bytes → List Bytes → Bool
  | isok, _, [] => isok
  | isok, buf, chunk :: rest =>
    statusShown (isok || shows okLine (overlay chunk buf)) (overlay chunk buf) rest

/- The header ends inside one chunk, where the loop comes to look for its end. -/
inductive EndsHeader : List Bytes → Prop where
  | inChunk (before : List Bytes) (front payload : Bytes) (after : List Bytes)
      (chars : 0 ∉ front)
      (unread : Unread false start.buf before)
      (status : statusShown false start.buf (before ++ [front ++ blankLine ++ payload]) = true)
      (body : bodyOf (before ++ (front ++ blankLine ++ payload) :: after).flatten =
        payload ++ after.flatten) :
      EndsHeader (before ++ (front ++ blankLine ++ payload) :: after)

def Readable (cs : List Bytes) : Prop :=
  EndsHeader cs ∨ bodyOf cs.flatten = [] ∧ Unread false start.buf cs

theorem foundShows {needle : Bytes} (isNeedle : Needle needle) (buf : Bytes) :
    found buf needle = shows needle buf := by
  by_cases inside : needle <:+: cstr buf
  · obtain ⟨pos,here⟩ := strstrHere isNeedle inside
    simp [found,shows,here,inside]
  · have nothing := strstrNone isNeedle inside
    split at nothing <;> simp [found,shows,nothing,inside]

theorem strstrShows {needle buf : Bytes} (isNeedle : Needle needle) :
    (strstr buf needle = .absent ↔ shows needle buf = false ∧ 0 ∈ buf) ∧
    (strstr buf needle = .overrun ↔ shows needle buf = false ∧ 0 ∉ buf) := by
  by_cases inside : needle <:+: cstr buf
  · obtain ⟨pos,here⟩ := strstrHere isNeedle inside
    simp [shows,here,inside]
  · rw [strstrNone isNeedle inside]
    by_cases ended : 0 ∈ buf <;> simp [shows,inside,ended]

def passed (s : Reader) (chunk : Bytes) : Reader := {s with
  buf := overlay chunk s.buf
  isok := s.isok || shows okLine (overlay chunk s.buf)}

theorem onDataUnread {s : Reader} {chunk : Bytes} (idle : s.inPayload = false)
    (ended : 0 ∈ overlay chunk s.buf)
    (silent : (s.isok || shows okLine (overlay chunk s.buf)) = true →
      shows blankLine (overlay chunk s.buf) = false) : onData s chunk = .next (passed s chunk) := by
  rw [passed,onDataIdle idle,foundShows okLineNeedle]
  split
  · rename_i seen
    have absent := (strstrShows blankLineNeedle).1.mpr ⟨silent seen,ended⟩
    simp only [readPayload,absent,seen]
  · rename_i unseen
    obtain ⟨notOk,hidden⟩ := Bool.or_eq_false_iff.mp (Bool.eq_false_iff.mpr unseen)
    have absent := (strstrShows okLineNeedle).1.mpr ⟨hidden,ended⟩
    rw [absent,if_neg (by simp),hidden,Bool.or_false]

-- A blank line behind `front` is the first one of its chunk, and no NUL hides it.
structure FirstBlank (front : Bytes) : Prop where
  chars : ∀ b ∈ front, b ≠ 0
  first : ∀ i < front.length, ¬ blankLine <+: (front ++ blankLine).drop i

theorem blankAt {chunk buf : Bytes} {pos : Nat} (here : strstr (overlay chunk buf) blankLine = .here pos)
    (fits : pos + 4 ≤ chunk.length) : ∃ front payload, chunk = front ++ blankLine ++ payload ∧
      front.length = pos ∧ FirstBlank front := by
  have starts := strstrSound here
  have chars := strstrFront here
  have early := strstrEarliest here blankLineNeedle
  rw [overlay,List.drop_append_of_le_length (by omega)] at starts
  rw [overlay,List.take_append_of_le_length (by omega)] at chars
  obtain ⟨payload,split⟩ : blankLine <+: chunk.drop pos :=
    List.prefix_of_prefix_length_le starts (List.prefix_append _ _) (by
      rw [List.length_drop]; exact Nat.le_sub_of_add_le' fits)
  have whole : chunk = chunk.take pos ++ blankLine ++ payload := by
    rw [List.append_assoc,split,List.take_append_drop]
  have width : (chunk.take pos).length = pos := List.length_take_of_le (by omega)
  refine ⟨chunk.take pos,payload,whole,width,chars,fun i below inside => ?_⟩
  rw [width] at below
  have fitted : i ≤ (chunk.take pos ++ blankLine).length := by rw [List.length_append]; omega
  refine early i below (inside.trans ?_)
  rw [overlay]
  nth_rewrite 2 [whole]
  rw [List.append_assoc,List.drop_append_of_le_length fitted]
  exact List.prefix_append _ _

theorem onDataNext {s t : Reader} {chunk : Bytes} (idle : s.inPayload = false)
    (moved : onData s chunk = .next t) :
    (0 ∈ overlay chunk s.buf ∧
      ((s.isok || shows okLine (overlay chunk s.buf)) = true →
        shows blankLine (overlay chunk s.buf) = false)) ∨
    ((s.isok || shows okLine (overlay chunk s.buf)) = true ∧
      ∃ front payload, chunk = front ++ blankLine ++ payload ∧ FirstBlank front ∧
        Storing t payload) := by
  have whole := moved
  rw [onDataIdle idle,foundShows okLineNeedle] at moved
  split at moved
  · rename_i seen
    rw [readPayload] at moved
    split at moved
    · rename_i absent
      obtain ⟨hidden,ended⟩ := (strstrShows blankLineNeedle).1.mp absent
      exact .inl ⟨ended,fun _ => hidden⟩
    · cases moved
    · rename_i pos here
      refine .inr ⟨seen,?_⟩
      dsimp only at moved here
      split at moved
      · cases moved
      · rename_i fits
        obtain ⟨front,payload,split,rfl,first⟩ := blankAt here (by omega)
        rw [← foundShows okLineNeedle] at seen
        obtain ⟨u,stepped,storing⟩ := storesPayload idle seen split here
        obtain rfl := Progress.next.inj (stepped.symm.trans whole)
        exact ⟨front,payload,split,first,storing⟩
  · rename_i unseen
    obtain ⟨-,hidden⟩ := Bool.or_eq_false_iff.mp (Bool.eq_false_iff.mpr unseen)
    split at moved
    · cases moved
    · rename_i inside
      refine .inl ⟨?_,fun seen => (unseen seen).elim⟩
      by_contra unended
      exact inside ((strstrShows okLineNeedle).2.mpr ⟨hidden,unended⟩)

theorem feedUnread {before : List Bytes} {s : Reader} (idle : s.inPayload = false)
    (unread : Unread s.isok s.buf before) : ∃ t, (∀ rest, feed s (before ++ rest) = feed t rest) ∧
      (∀ rest, statusShown s.isok s.buf (before ++ rest) = statusShown t.isok t.buf rest) ∧
      t.inPayload = false ∧ t.recvbuf = s.recvbuf ∧ t.totalbytes = s.totalbytes := by
  induction before generalizing s with
  | nil => exact ⟨s,fun _ => rfl,fun _ => rfl,idle,rfl,rfl⟩
  | cons chunk before ih =>
    obtain ⟨ended,silent,later⟩ := unread
    have moved := onDataUnread idle ended silent
    obtain ⟨t,feeds,status,kept⟩ := ih (s := passed s chunk) idle later
    refine ⟨t,fun rest => ?_,fun rest => status rest,kept⟩
    rw [List.cons_append,feed,moved]
    exact feeds rest

theorem feedNext {cs : List Bytes} {s t : Reader} (idle : s.inPayload = false)
    (fed : feed s cs = .next t) :
    ((t.recvbuf = s.recvbuf ∧ t.totalbytes = s.totalbytes) ∧ Unread s.isok s.buf cs) ∨
    ∃ before front payload after, cs = before ++ (front ++ blankLine ++ payload) :: after ∧
      FirstBlank front ∧ Unread s.isok s.buf before ∧
      statusShown s.isok s.buf (before ++ [front ++ blankLine ++ payload]) = true ∧
      Storing t (payload ++ after.flatten) := by
  induction cs generalizing s with
  | nil =>
    obtain rfl := Progress.next.inj fed
    exact .inl ⟨⟨rfl,rfl⟩,trivial⟩
  | cons chunk rest ih =>
    rw [feed] at fed
    cases moved : onData s chunk with
    | stop outcome => rw [moved] at fed; cases fed
    | next u =>
      rw [moved] at fed
      obtain ⟨ended,silent⟩ | ⟨seen,front,payload,rfl,first,storing⟩ := onDataNext idle moved
      · obtain rfl := Progress.next.inj ((onDataUnread idle ended silent).symm.trans moved)
        obtain ⟨kept,later⟩ | ⟨before,front,payload,after,rfl,first,unread,status,stored⟩ :=
          ih (s := passed s chunk) idle fed
        · exact .inl ⟨kept,ended,silent,later⟩
        · exact .inr ⟨chunk :: before,front,payload,after,rfl,first,⟨ended,silent,unread⟩,status,stored⟩
      · obtain ⟨v,moved,stored⟩ := feedPayload storing rest
        obtain rfl := Progress.next.inj (moved.symm.trans fed)
        exact .inr ⟨[],front,payload,rest,rfl,first,trivial,seen,stored⟩

theorem feedSilent {cs : List Bytes} (unread : Unread false start.buf cs) :
    ∃ t, feed start cs = .next t ∧ t.recvbuf = none ∧ t.totalbytes = 0 := by
  obtain ⟨t,feeds,-,-,kept⟩ := feedUnread (s := start) rfl unread
  have fed := feeds []
  rw [List.append_nil] at fed
  exact ⟨t,fed,kept⟩

theorem feedHeaderEnd {before : List Bytes} {front payload : Bytes} (first : FirstBlank front)
    (unread : Unread false start.buf before)
    (status : statusShown false start.buf (before ++ [front ++ blankLine ++ payload]) = true)
    (after : List Bytes) :
    ∃ t, feed start (before ++ (front ++ blankLine ++ payload) :: after) = .next t ∧
      Storing t (payload ++ after.flatten) := by
  obtain ⟨t,feeds,shown,idle,-⟩ := feedUnread (s := start) rfl unread
  have status := (shown _).symm.trans status
  have seen : (t.isok || found (overlay (front ++ blankLine ++ payload) t.buf) okLine) = true := by
    rw [foundShows okLineNeedle]
    exact status
  obtain ⟨u,moved,storing⟩ := readHeaderEnd idle seen rfl first.chars first.first
  obtain ⟨v,fed,stored⟩ := feedPayload storing after
  refine ⟨v,?_,stored⟩
  rw [feeds,feed,moved]
  exact fed

theorem bodyAt {stream : Bytes} {i : Nat} (starts : blankLine <+: stream.drop i) :
    ∃ k ≤ i, k + 4 ≤ stream.length ∧ bodyOf stream = stream.drop (k + 4) ∧
      ∀ j < k, ¬ blankLine <+: stream.drop j := by
  induction stream generalizing i with
  | nil =>
    rw [List.drop_nil] at starts
    exact absurd starts (by decide)
  | cons b rest ih =>
    by_cases here : blankLine <+: b :: rest
    · have match_ : blankLine.isPrefixOf (b :: rest) = true := List.isPrefixOf_iff_prefix.mpr here
      exact ⟨0,Nat.zero_le i,here.length_le,if_pos match_,fun j below => absurd below (Nat.not_lt_zero j)⟩
    · have other : ¬ blankLine.isPrefixOf (b :: rest) = true :=
        fun match_ => here (List.isPrefixOf_iff_prefix.mp match_)
      cases i with
      | zero => exact (here starts).elim
      | succ i =>
        obtain ⟨k,before,inside,body,first⟩ := ih starts
        refine ⟨k + 1,Nat.succ_le_succ before,?_,(if_neg other).trans body,?_⟩
        · rw [List.length_cons]; omega
        · intro j below
          cases j with
          | zero => exact here
          | succ j => exact first j (by omega)

section HeaderEnd
variable (before after : List Bytes) (front payload : Bytes)

theorem flattenParts : (before ++ (front ++ blankLine ++ payload) :: after).flatten =
    before.flatten ++ front ++ blankLine ++ (payload ++ after.flatten) := by
  simp only [List.flatten_append,List.flatten_cons,List.append_assoc]

theorem blankStarts : blankLine <+:
    (before ++ (front ++ blankLine ++ payload) :: after).flatten.drop
      (before.flatten ++ front).length := by
  rw [flattenParts,List.append_assoc _ blankLine,List.drop_left]
  exact List.prefix_append _ _

theorem lengths : (before ++ (front ++ blankLine ++ payload) :: after).flatten.length =
    (before.flatten ++ front).length + 4 + (payload ++ after.flatten).length := by
  have width : blankLine.length = 4 := rfl
  simp only [flattenParts,List.length_append,width]

theorem bodyBehind
    (long : (bodyOf (before ++ (front ++ blankLine ++ payload) :: after).flatten).length =
      (payload ++ after.flatten).length) :
    bodyOf (before ++ (front ++ blankLine ++ payload) :: after).flatten = payload ++ after.flatten ∧
      ∀ j < (before.flatten ++ front).length, ¬ blankLine <+:
        (before ++ (front ++ blankLine ++ payload) :: after).flatten.drop j := by
  obtain ⟨k,early,inside,body,first⟩ := bodyAt (blankStarts before after front payload)
  have total := lengths before after front payload
  rw [body,List.length_drop] at long
  obtain rfl : k = (before.flatten ++ front).length := by omega
  refine ⟨?_,first⟩
  have width : (before.flatten ++ front ++ blankLine).length = (before.flatten ++ front).length + 4 :=
    List.length_append
  rw [body,flattenParts,← width,List.drop_left]

end HeaderEnd

theorem feedReadable {cs : List Bytes} : (∃ t, feed start cs = .next t ∧
    t.totalbytes = (bodyOf cs.flatten).length) ↔ Readable cs := by
  constructor
  · rintro ⟨t,fed,total⟩
    obtain ⟨⟨-,zero⟩,unread⟩ | ⟨before,front,payload,after,rfl,first,unread,status,stored⟩ :=
      feedNext rfl fed
    · exact .inr ⟨List.length_eq_zero_iff.mp (total.symm.trans zero),unread⟩
    · have nonzero : 0 ∉ front := fun mem => first.chars 0 mem rfl
      have body := (bodyBehind before after front payload (total.symm.trans stored.totalbytes)).1
      exact .inl (.inChunk before front payload after nonzero unread status body)
  · rintro (⟨before,front,payload,after,chars,unread,status,body⟩ | ⟨empty,unread⟩)
    · have nonzero : ∀ b ∈ front, b ≠ 0 := fun b mem zero => chars (zero ▸ mem)
      have first : ∀ i < front.length, ¬ blankLine <+: (front ++ blankLine).drop i := by
        intro i below starts
        have inFront : before.flatten.length + i < (before.flatten ++ front).length := by
          rw [List.length_append]; omega
        refine (bodyBehind _ _ _ _ (congrArg List.length body)).2 _ inFront (starts.trans ?_)
        have inside : i ≤ (front ++ blankLine).length := by rw [List.length_append]; omega
        rw [flattenParts,List.append_assoc before.flatten,List.append_assoc before.flatten,
          List.drop_length_add_append,List.drop_append_of_le_length inside]
        exact List.prefix_append _ _
      obtain ⟨t,fed,stored⟩ := feedHeaderEnd ⟨nonzero,first⟩ unread status after
      exact ⟨t,fed,by rw [body]; exact stored.totalbytes⟩
    · obtain ⟨t,fed,-,zero⟩ := feedSilent unread
      exact ⟨t,fed,by rw [zero,empty]; rfl⟩

theorem receiveResponse {conf : Conf} {startTime : UInt32} {events : List Event} {cs : List Bytes}
    (s : Reader) (complete : response conf startTime events = some cs) :
    receive conf startTime s events = match feed s cs with
      | .next t => some (.returned t.totalbytes t.recvbuf .closed)
      | .stop outcome => some outcome := by
  induction events generalizing s cs with
  | nil => cases complete
  | cons e rest ih =>
    obtain ⟨now,result⟩ := e
    unfold response at complete
    unfold receive
    split at complete
    · cases complete
    · rename_i early
      rw [if_neg early]
      cases result with
      | interrupted => exact ih s complete
      | failed => cases complete
      | closed =>
        obtain rfl := Option.some.inj complete
        rfl
      | data chunk =>
        obtain ⟨tail,later,rfl⟩ := Option.map_eq_some_iff.mp complete
        simp only [feed]
        cases moved : onData s chunk.val with
        | next t => exact ih t later
        | stop outcome => rfl

theorem postNever (conf : Conf) (host path body : Bytes) (len : Nat) (calls : Calls) :
    postReturns conf host path body len calls ≠ some (-1) := by
  rw [postReturns]
  split
  · rename_i totalbytes _ _ _
    rw [returned]
    split
    · exact fun same => absurd (Option.some.inj same) (by omega)
    · exact Option.some_ne_none _ ∘ Eq.symm
  · exact Option.some_ne_none _ ∘ Eq.symm

theorem sendSame (conf : Conf) (path buf : Bytes) (calls : Calls) :
    sendReturns conf path buf calls = postReturns conf (getConfig conf (ascii "cloud.remote_host"))
      path (cloudBody conf buf) (cloudBody conf buf).length calls := by
  rw [sendReturns,cloudSendCalls,postReturns]
  cases httpPost conf (getConfig conf (ascii "cloud.remote_host")) path (cloudBody conf buf)
    (cloudBody conf buf).length calls with
  | none => rfl
  | some outcome => cases outcome <;> rfl

theorem succeededRequest {conf : Conf} {text : Bytes} {size : Nat} {calls : Calls} {cs : List Bytes}
    (succeeded : Succeeded conf text calls cs) :
    request calls (snprintf size text) = .answered calls.events := by
  obtain ⟨n,sent,whole⟩ := succeeded.sent
  have shorter : (snprintf size text).length ≤ text.length := List.length_take_le' ..
  have all : sentAll (snprintf size text) calls = true := by
    simp only [sentAll,sent]
    simp only [Bool.not_eq_true',decide_eq_false_iff_not]
    omega
  rw [request,succeeded.connected,all]
  rfl

theorem postReturnsSome {conf : Conf} {host path body : Bytes} {len : Nat} {calls : Calls}
    {cs : List Bytes} (succeeded : Succeeded conf (requestText conf host path body len) calls cs)
    (n : Nat) : postReturns conf host path body len calls = some (n : Int) ↔
      n < 2147483648 ∧ ∃ t, feed start cs = .next t ∧ t.totalbytes = n := by
  have result : httpPost conf host path body len calls = match feed start cs with
      | .next t => some (.returned t.totalbytes t.recvbuf .closed)
      | .stop outcome => some outcome := by
    rw [httpPost]
    simp only [succeededRequest succeeded]
    exact receiveResponse start succeeded.complete
  rw [postReturns,result]
  cases fed : feed start cs with
  | stop outcome =>
    rcases feedStop fed with rfl | rfl <;> simp
  | next t =>
    simp only [returned,Progress.next.injEq,exists_eq_left']
    constructor
    · intro same
      split at same
      · rename_i small
        have equal : t.totalbytes = n := Int.ofNat.inj (Option.some.inj same)
        exact ⟨equal ▸ small,equal⟩
      · cases same
    · rintro ⟨small,rfl⟩
      exact if_pos small

theorem truthfulPost (conf : Conf) (host path body : Bytes) (len : Nat) (calls : Calls) :
    Truthful conf (requestText conf host path body len) calls
        (postReturns conf host path body len calls) ↔
      ∃ cs, Succeeded conf (requestText conf host path body len) calls cs ∧
        (bodyOf cs.flatten).length < 2147483648 ∧ Readable cs := by
  constructor
  · intro truthful
    by_cases succeeded : ∃ cs, Succeeded conf (requestText conf host path body len) calls cs
    · obtain ⟨cs,success⟩ := succeeded
      obtain ⟨small,stored⟩ := (postReturnsSome success _).mp (truthful.success cs success)
      exact ⟨cs,success,small,feedReadable.mp stored⟩
    · exact (postNever _ _ _ _ _ _ (truthful.failure succeeded)).elim
  · rintro ⟨cs,success,small,readable⟩
    refine ⟨fun none => (none ⟨cs,success⟩).elim,fun other otherSuccess => ?_⟩
    obtain rfl := Option.some.inj (success.complete.symm.trans otherSuccess.complete)
    exact (postReturnsSome success _).mpr ⟨small,feedReadable.mpr readable⟩

/-- What is promised is returned exactly for a request that succeeded, with a body whose length
is an int and a header that the loop reads where it ends. -/
theorem truthfulIff (conf : Conf) (path : Bytes) (calls : Calls) :
    (∀ host body len, Truthful conf (requestText conf host path body len) calls
        (postReturns conf host path body len calls) ↔
      ∃ cs, Succeeded conf (requestText conf host path body len) calls cs ∧
        (bodyOf cs.flatten).length < 2147483648 ∧ Readable cs) ∧
    ∀ buf, Truthful conf (cloudRequest conf path buf) calls (sendReturns conf path buf calls) ↔
      ∃ cs, Succeeded conf (cloudRequest conf path buf) calls cs ∧
        (bodyOf cs.flatten).length < 2147483648 ∧ Readable cs := by
  refine ⟨fun host body len => truthfulPost conf host path body len calls,fun buf => ?_⟩
  rw [sendSame]
  exact truthfulPost conf _ path _ _ calls

def refused : Calls := ⟨0,true,true,true,true,false,none,[]⟩

theorem refusedReturnsZero : ¬ ∀ conf host path body len calls,
    Truthful conf (requestText conf host path body len) calls
      (postReturns conf host path body len calls) := by
  intro claim
  have truthful := claim [] [] [] [] 0 refused
  have failed : ¬ ∃ cs, Succeeded [] (requestText [] [] [] [] 0) refused cs :=
    fun ⟨_,success⟩ => absurd success.connected (by decide)
  exact absurd (truthful.failure failed) (by decide)

end RfidStation.ReturnValue
