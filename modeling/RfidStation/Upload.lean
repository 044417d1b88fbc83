import RfidStation.Framing
import RfidStation.Lib.Form
import RfidStation.Lib.Message
import RfidStation.Requests
import RfidStation.UrlEncode

/-! An upload on the wire: what a server reads out of the request that cloud_send writes for the
records of notify, over the format that merger.c documents. -/
namespace RfidStation.Upload
open Cstr Config ConfigFile HttpRequest Requests

structure Received where
  path : Bytes
  token : Bytes
  data : Bytes
  deriving DecidableEq, Repr

def requestPath (lines : List Bytes) : Option Bytes :=
  (lines.head?.filter ((ascii "POST ").isPrefixOf ·)).map (fun line => Lines.before 32 (line.drop 5))

def serve (text : Bytes) : Option Received := do
  let (lines,body) ← Message.receive text
  let path ← requestPath lines
  let token ← Form.value (ascii "token") body
  let data ← Form.value (ascii "data") body
  some ⟨path,token,data⟩

theorem writtenText (lines : List Bytes) (body : Bytes) :
    ended lines ++ crlf ++ body = Message.written lines body := rfl

theorem announced (conf : Conf) (path : Bytes) (length : Nat) :
    Message.header Message.contentLength (headerLines conf path length) = some (ascii (toString length)) := by
  have post : ascii "POST " = 80 :: [79,83,84,32] := by decide
  have host : ascii "Host: " = 72 :: [111,115,116,58,32] := by decide
  have agent : ascii "User-Agent: " = 85 :: [115,101,114,45,65,103,101,110,116,58,32] := by decide
  have name : Message.contentLength = 67 :: Message.contentLength.tail := by decide
  have close : Message.contentLength.isPrefixOf (ascii "Connection: close") = false := by decide
  have other (b : UInt8) (rest : Bytes) (differ : b ≠ 67) :
      Message.contentLength.isPrefixOf (b :: rest) = false := by
    rw [name,List.isPrefixOf,beq_eq_false_iff_ne.mpr (Ne.symm differ),Bool.false_and]
  have here : Message.contentLength.isPrefixOf (Message.contentLength ++ ascii (toString length)) = true :=
    List.isPrefixOf_iff_prefix.mpr (List.prefix_append _ _)
  rw [Message.header,headerLines,post,host,agent]
  simp only [List.cons_append,List.find?_cons,other _ _ (by decide : (80 : UInt8) ≠ 67),
    other _ _ (by decide : (72 : UInt8) ≠ 67),other _ _ (by decide : (85 : UInt8) ≠ 67),close]
  rw [← Message.contentLength,here]
  exact congrArg some List.drop_left

theorem pathRead {conf : Conf} {path : Bytes} (value : Value path) (length : Nat) :
    requestPath (headerLines conf path length) = some path := by
  have blank : ascii " HTTP/1.1" = 32 :: ascii "HTTP/1.1" := by decide
  have post : (ascii "POST ").length = 5 := by decide
  have inPath : ∀ c ∈ path, (c != 32) = true := by
    intro c mem
    refine bne_iff_ne.mpr (fun same => ?_)
    exact absurd (value.graphic c mem) (by rw [same]; decide)
  have starts : (ascii "POST ").isPrefixOf (ascii "POST " ++ path ++ ascii " HTTP/1.1") = true :=
    List.isPrefixOf_iff_prefix.mpr ((List.prefix_append _ _).trans (List.prefix_append _ _))
  have rest : (ascii "POST " ++ path ++ ascii " HTTP/1.1").drop 5 = path ++ 32 :: ascii "HTTP/1.1" := by
    rw [List.append_assoc,← post,List.drop_left,blank]
  rw [requestPath,headerLines,List.head?_cons,Option.filter_some,if_pos starts,Option.map_some,rest,
    Lines.before,List.takeWhile_append_of_pos inPath]
  simp

theorem formBody (conf : Conf) (buf : Bytes) : wholeBody conf buf =
    ascii "token" ++ 61 :: getConfig conf (ascii "cloud.access_token") ++
      38 :: (ascii "data" ++ 61 :: urlencode buf) := by
  have token : ascii "token=" = ascii "token" ++ [61] := by decide
  have data : ascii "&data=" = 38 :: (ascii "data" ++ [61]) := by decide
  simp only [wholeBody,token,data,List.append_assoc,List.cons_append,List.nil_append]

theorem urlencodeReads (buf : Bytes) : Form.unescape (urlencode buf) = some buf := by
  have spaces : 43 ∉ urlencode buf := by
    intro mem
    rcases Percent.encodeMem mem with kept | escape | ⟨b,digit⟩
    · exact absurd kept (by decide)
    · exact absurd escape (by decide)
    · obtain ⟨hi,lo,digits,high,low⟩ := UrlEncode.hexByteLower b
      rw [digits] at digit
      rcases List.mem_cons.mp digit with rfl | last
      · exact absurd high (by decide)
      · rw [← List.mem_singleton.mp last] at low
        exact absurd low (by decide)
  rw [Form.unescape,Form.spacesPlain spaces]
  exact (UrlEncode.roundTrips buf).decodes

theorem headerPlain {conf : Conf} {path : Bytes} (values : Values conf path) (length : Nat) :
    ∀ line ∈ headerLines conf path length, Message.Line line := headerLinesPlain values length

theorem serveWhole {conf : Conf} {path : Bytes} (values : Values conf path) (buf : Bytes) :
    serve (Message.written (headerLines conf path (wholeBody conf buf).length) (wholeBody conf buf)) =
      some ⟨path,getConfig conf (ascii "cloud.access_token"),buf⟩ ↔
    Form.Plain (getConfig conf (ascii "cloud.access_token")) := by
  have names : (38 ∉ ascii "token" ∧ 61 ∉ ascii "token") ∧ (38 ∉ ascii "data" ∧ 61 ∉ ascii "data") ∧
      ascii "data" ≠ ascii "token" := by decide
  have graphic : 32 ∉ getConfig conf (ascii "cloud.access_token") :=
    fun mem => absurd (values.token.graphic 32 mem) (by decide)
  have received := Message.receiveReads (headerPlain values (wholeBody conf buf).length)
    (announced conf path (wholeBody conf buf).length)
  have token := Form.firstReads names.1 graphic (ascii "data" ++ 61 :: urlencode buf)
  rw [← formBody] at token
  simp only [serve,received,pathRead values.path,Option.bind_eq_bind,Option.bind_some]
  constructor
  · intro reads
    obtain ⟨read,first,reads⟩ := Option.bind_eq_some_iff.mp reads
    obtain ⟨data,-,same⟩ := Option.bind_eq_some_iff.mp reads
    refine token.mp (first.trans ?_)
    exact congrArg (fun r => some r.token) (Option.some.inj same)
  · intro plain
    have data : Form.value (ascii "data") (wholeBody conf buf) = some buf := by
      rw [formBody,Form.value,Form.lookupSecond names.1 names.2.1 names.2.2 plain.1
        (fun mem => (UrlEncode.urlencodePlain mem).1 rfl)]
      exact urlencodeReads buf
    rw [token.mpr plain,Option.bind_some,data]
    rfl

theorem cutUnread {conf : Conf} {path buf text : Bytes} (values : Values conf path)
    (built : cloudTcp conf path buf = some text) (cut : ¬ Fits conf path buf) : serve text = none := by
  have small : (urlencode buf).length + maxHeadersLength < 2147483648 := by
    by_contra large
    rw [cloudTcp,if_neg large] at built
    contradiction
  have taken := Option.some.inj ((cloudTcpCut values small).symm.trans built)
  rw [writtenText] at taken
  have part : text ≠ Message.written (headerLines conf path (wholeBody conf buf).length)
      (wholeBody conf buf) := by
    intro whole
    refine cut ((completeFits values).mp ⟨text,built,whole,?_⟩)
    rw [whole,← writtenText,wholeBehind values]
  have isPart : text <+: Message.written (headerLines conf path (wholeBody conf buf).length)
      (wholeBody conf buf) := taken ▸ List.take_prefix _ _
  rw [serve,Message.receiveCut (headerPlain values _) (announced conf path _) isPart part]
  rfl

/-- The request of a message is read as its path, the token and the message exactly if its
values leave room for it and the token has none of '&', '%' and '+'; of one that is cut nothing
is read. -/
theorem readIffPlain (conf : Conf) (path buf : Bytes) (values : Values conf path) :
    ((∃ text, cloudTcp conf path buf = some text ∧
      serve text = some ⟨path,getConfig conf (ascii "cloud.access_token"),buf⟩) ↔
    Fits conf path buf ∧ Form.Plain (getConfig conf (ascii "cloud.access_token"))) ∧
    ∀ text, cloudTcp conf path buf = some text → ¬ Fits conf path buf → serve text = none := by
  refine ⟨⟨?_,?_⟩,fun text built cut => cutUnread values built cut⟩
  · rintro ⟨text,built,reads⟩
    have fits : Fits conf path buf := by
      by_contra cut
      rw [cutUnread values built cut] at reads
      contradiction
    obtain ⟨same,again,complete⟩ := (completeFits values).mpr fits
    obtain rfl := Option.some.inj (again.symm.trans built)
    rw [complete.whole,writtenText] at reads
    exact ⟨fits,(serveWhole values buf).mp reads⟩
  · rintro ⟨fits,plain⟩
    obtain ⟨text,built,complete⟩ := (completeFits values).mpr fits
    refine ⟨text,built,?_⟩
    rw [complete.whole,writtenText]
    exact (serveWhole values buf).mpr plain

def shipped : Conf := [
  (ascii "cloud.access_token",ascii "helloworld123"),(ascii "cloud.remote_host",ascii "gewu.me"),
  (ascii "cloud.ok_response",ascii "OK"),(ascii "http.user_agent",ascii "merger/1.0"),
  (ascii "http.max_data_len",ascii "20000"),(ascii "paths.upload",ascii "/ecard/notify")]

theorem shippedValues : Values shipped (ascii "/ecard/notify") := ⟨by decide,by decide,by decide,by decide⟩

theorem readIffPlainShipped : (∃ text, cloudTcp shipped (ascii "/ecard/notify") [38,61,37] = some text ∧
      serve text = some ⟨ascii "/ecard/notify",ascii "helloworld123",[38,61,37]⟩) ∧
    ∀ text, cloudTcp (named (List.replicate 99 97) (List.replicate 99 97)) (ascii "/up") [38] = some text →
      serve text = none :=
  ⟨(readIffPlain shipped (ascii "/ecard/notify") [38,61,37] shippedValues).1.mpr (by decide),
    fun text built => (readIffPlain (named (List.replicate 99 97) (List.replicate 99 97)) (ascii "/up") [38]
      ⟨by decide,by decide,by decide,by decide⟩).2 text built (by decide)⟩

section Runs
open NotifyQueue Conservation Records Framing
variable {size : Nat}

def uploadPath (conf : Conf) : Bytes := getConfig conf (ascii "paths.upload")

/- The notices that a server with the token takes from a body, if it knows the path. -/
def wire (size : Nat) (conf : Conf) (body : Bytes) : Option (List (Notice size)) := do
  let text ← cloudTcp conf (uploadPath conf) body
  let got ← serve text
  if got.path = uploadPath conf ∧ got.token = getConfig conf (ascii "cloud.access_token") then
    decodeBody size got.data else none

theorem wireReads {conf : Conf} (values : Values conf (uploadPath conf))
    (plain : Form.Plain (getConfig conf (ascii "cloud.access_token"))) {calls : List (Notice size)}
    (fits : Fits conf (uploadPath conf) (calls.flatMap record)) :
    wire size conf (calls.flatMap record) = some calls := by
  obtain ⟨text,built,complete⟩ := (completeFits values).mpr fits
  have read := (serveWhole values (calls.flatMap record)).mpr plain
  rw [← writtenText,← complete.whole] at read
  simp only [wire,built,read,Option.bind_eq_bind,Option.bind_some,and_self,if_true,decodeBodyReads]

/-- In every run of the sender that cuts its queue between records, a server reads whole notices
out of every upload that fits, and those of the acknowledged ones, the pending body and the
queue are the calls of notify, each once. -/
theorem uploadsRead (conf : Conf) (values : Values conf (uploadPath conf))
    (plain : Form.Plain (getConfig conf (ascii "cloud.access_token")))
    (limit : (requestSize size : Int) ≤ (limits conf).maxDataLen) (acts : List (Act (Notice size)))
    (cuts : Runs.Meets (step (limits conf) record) (WholeCut (limits conf) (requestSize size)) initial acts)
    (s : Pipe (Notice size) UInt8) (run : Runs.exec (step (limits conf) record) initial acts = some s)
    (fits : ∀ body ∈ s.uploads, Fits conf (uploadPath conf) body) :
    (∀ body ∈ s.uploads, ∃ calls, wire size conf body = some calls ∧ calls.Sublist s.calls) ∧
    ∃ (acked : List (List (Notice size))) (pending queued : List (Notice size)),
      s.acked.map (wire size conf) = acked.map some ∧
      decodeBody size (s.sendBuf.getD []) = some pending ∧ decodeBody size s.queue.cells = some queued ∧
      (acked.flatten ++ pending ++ queued).Perm s.calls := by
  obtain ⟨r,whole⟩ : ∃ r, Whole (limits conf) s r := by
    refine Runs.invariantUnder (I := fun s => ∃ r, Whole (limits conf) s r) ?_ ⟨initial,initialWhole _⟩ cuts run
    rintro s a t ⟨r,whole⟩ cut h
    obtain ⟨r',-,later⟩ := stepWhole limit whole cut h
    exact ⟨r',later⟩
  have sub : s.acked ⊆ s.uploads := by
    rw [(initialAckedBy run).acked]
    exact passedSubset ..
  refine ⟨fun body mem => ?_,r.acked,r.sendBuf.getD [],r.queue.cells,?_,?_,?_,?_⟩
  · obtain ⟨calls,part,rfl,-⟩ := (wholeFramed whole).1 body mem
    exact ⟨calls,wireReads values plain (fits _ mem),part⟩
  · rw [whole.refines.acked,List.map_map]
    refine List.map_congr_left (fun calls mem => ?_)
    have body : calls.flatMap record ∈ s.acked := by
      rw [whole.refines.acked]
      exact List.mem_map_of_mem mem
    exact wireReads values plain (fits _ (sub body))
  · rw [whole.refines.sendBuf]
    cases r.sendBuf with
    | none => rfl
    | some calls => exact decodeBodyReads calls
  · rw [whole.refines.queue]
    exact decodeBodyReads _
  · rw [← whole.refines.calls]
    exact callsOnce whole.once

def twoNotices : List (Act (Notice 1)) :=
  [.notify (oneByte 5,false),.notify (oneByte 7,true),.enter,.testEmpty,.testLong,.dequeue,
    .upload ⟨0,none⟩,.notify (oneByte 9,true),.enter,.upload ⟨2,some (ascii "OK")⟩]

theorem uploadsReadTwoNotices : ∃ s, Runs.exec (step (limits shipped) record) initial twoNotices = some s ∧
    s.acked.map (wire 1 shipped) = [some [(oneByte 5,false),(oneByte 7,true)]] ∧
    ∃ (acked : List (List (Notice 1))) (pending queued : List (Notice 1)),
      s.acked.map (wire 1 shipped) = acked.map some ∧
      decodeBody 1 (s.sendBuf.getD []) = some pending ∧ decodeBody 1 s.queue.cells = some queued ∧
      (acked.flatten ++ pending ++ queued).Perm s.calls := by
  have seen : (Runs.exec (step (limits shipped) record) initial twoNotices).map (fun s => (s.uploads,s.acked)) =
      some ([ascii "050.071.",ascii "050.071."],[ascii "050.071."]) := by decide +kernel
  obtain ⟨s,run,bodies⟩ := Option.map_eq_some_iff.mp seen
  obtain ⟨uploads,acked⟩ := Prod.mk.inj bodies
  have read := uploadsRead shipped shippedValues (by decide) (by decide) twoNotices (by decide +kernel) s run
    (by rw [uploads]; decide)
  have both : wire 1 shipped ([(oneByte 5,false),(oneByte 7,true)].flatMap record) =
      some [(oneByte 5,false),(oneByte 7,true)] := wireReads shippedValues (by decide) (by decide)
  exact ⟨s,run,by rw [acked]; exact congrArg (fun got => [got]) both,read.2⟩

end Runs

end RfidStation.Upload
