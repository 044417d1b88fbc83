import RfidStation.HttpPost

/-! Responses whose status line and first blank line each come whole in one recv, over every
other division of the stream into chunks. -/
namespace RfidStation.Segments
open Cstr Config Search HttpPost

/-- Before the header ends, `text` is what the chunks so far have left at the start of `buf`.
Each chunk leaves room for a NUL, and once the status line has been seen no chunk together
with the bytes left behind it shows a blank line. -/
def Clear : Bool → Bytes → List Bytes → Prop
  | _, _, [] => True
  | isok, text, chunk :: rest =>
    chunk.length < bufSize ∧
    ((isok || decide (okLine <:+: overlay chunk text)) = true → ¬ blankLine <:+: overlay chunk text) ∧
    Clear (isok || decide (okLine <:+: overlay chunk text)) (overlay chunk text) rest

instance decidableClear : ∀ isok text chunks, Decidable (Clear isok text chunks)
  | _, _, [] => .isTrue trivial
  | isok, text, chunk :: rest =>
    have := decidableClear (isok || decide (okLine <:+: overlay chunk text)) (overlay chunk text) rest
    inferInstanceAs (Decidable (_ ∧ _ ∧ _))

structure Filled (buf text : Bytes) : Prop where
  buf : buf = text ++ List.replicate (bufSize - text.length) 0
  chars : ∀ b ∈ text, b ≠ 0
  room : text.length < bufSize

theorem startFilled : Filled start.buf [] := ⟨rfl,by simp,by decide⟩

theorem overlayFilled {buf text chunk : Bytes} (filled : Filled buf text)
    (chars : ∀ b ∈ chunk, b ≠ 0) (room : chunk.length < bufSize) :
    Filled (overlay chunk buf) (overlay chunk text) := by
  have := filled.room
  refine ⟨?_,?_,?_⟩
  · rw [filled.buf,overlay,overlay,List.drop_append,List.drop_replicate,List.append_assoc]
    congr 3
    simp only [List.length_append,List.length_drop]; omega
  · intro b mem
    rcases List.mem_append.mp mem with fresh | left
    · exact chars b fresh
    · exact filled.chars b (List.mem_of_mem_drop left)
  · simp only [overlay,List.length_append,List.length_drop]; omega

theorem filledSplit {buf text : Bytes} (filled : Filled buf text) : ∃ tail, buf = text ++ 0 :: tail := by
  obtain ⟨n,room⟩ : ∃ n, bufSize - text.length = n + 1 :=
    ⟨bufSize - text.length - 1,by have := filled.room; omega⟩
  exact ⟨List.replicate n 0,by rw [filled.buf,room,List.replicate_succ]⟩

theorem filledAbsent {buf text needle : Bytes} (filled : Filled buf text) (isNeedle : Needle needle)
    (outside : ¬ needle <:+: text) : strstr buf needle = .absent := by
  obtain ⟨tail,rfl⟩ := filledSplit filled
  exact strstrAbsent tail isNeedle filled.chars outside

theorem filledHere {buf text needle : Bytes} (filled : Filled buf text) (isNeedle : Needle needle)
    (inside : needle <:+: text) : ∃ pos, strstr buf needle = .here pos := by
  obtain ⟨tail,rfl⟩ := filledSplit filled
  obtain ⟨pos,here,_⟩ := strstrInfix (0 :: tail) isNeedle filled.chars inside
  exact ⟨pos,here⟩

theorem okFilled {buf text : Bytes} (filled : Filled buf text) :
    found buf okLine = decide (okLine <:+: text) ∧ strstr buf okLine ≠ .overrun := by
  by_cases inside : okLine <:+: text
  · obtain ⟨pos,here⟩ := filledHere filled okLineNeedle inside
    simp [found,here,inside]
  · have absent := filledAbsent filled okLineNeedle inside
    simp [found,absent,inside]

theorem foundFront {chunk front tail : Bytes} (buf : Bytes) (split : chunk = front ++ okLine ++ tail)
    (chars : ∀ b ∈ front, b ≠ 0) : found (overlay chunk buf) okLine = true := by
  have whole : overlay chunk buf = front ++ okLine ++ (tail ++ buf.drop chunk.length) := by
    rw [overlay]; nth_rewrite 1 [split]; simp
  obtain ⟨pos,here,_⟩ := strstrSome whole chars okLineNeedle
  simp [found,here]

theorem insideChunk {chunk buf needle : Bytes} {pos : Nat}
    (here : strstr (overlay chunk buf) needle = .here pos)
    (fits : pos + needle.length ≤ chunk.length) : needle <:+: chunk := by
  have starts := strstrSound here
  rw [overlay,List.drop_append_of_le_length (by omega)] at starts
  have inside : needle <+: chunk.drop pos :=
    List.prefix_of_prefix_length_le starts (List.prefix_append _ _) (by rw [List.length_drop]; omega)
  exact inside.isInfix.trans (List.drop_suffix pos chunk).isInfix

section OneChunk
variable {s : Reader} {text chunk : Bytes} (idle : s.inPayload = false)
  (filled : Filled s.buf text) (chars : ∀ b ∈ chunk, b ≠ 0)
include idle filled chars

theorem onDataClear (room : chunk.length < bufSize)
    (silent : (s.isok || decide (okLine <:+: overlay chunk text)) = true →
      ¬ blankLine <:+: overlay chunk text) :
    onData s chunk = .next {s with
      buf := overlay chunk s.buf
      isok := s.isok || decide (okLine <:+: overlay chunk text)} := by
  have filled := overlayFilled filled chars room
  obtain ⟨same,inside⟩ := okFilled filled
  rw [onDataIdle idle,same]
  split
  · rename_i seen
    simp only [readPayload,filledAbsent filled blankLineNeedle (silent seen),seen]
  · rename_i unseen
    have no : s.isok = (s.isok || decide (okLine <:+: overlay chunk text)) := by
      rw [Bool.eq_false_iff.mpr unseen]
      exact (Bool.or_eq_false_iff.mp (Bool.eq_false_iff.mpr unseen)).1
    rw [← no]

theorem onDataFalseMatch (room : chunk.length < bufSize)
    (seen : (s.isok || decide (okLine <:+: overlay chunk text)) = true)
    (blank : blankLine <:+: overlay chunk text) (fresh : ¬ blankLine <:+: chunk) :
    onData s chunk = .stop .exited := by
  have filled := overlayFilled filled chars room
  obtain ⟨pos,here⟩ := filledHere filled blankLineNeedle blank
  have straddles : ¬ pos + 4 ≤ chunk.length := fun fits => fresh (insideChunk here fits)
  rw [onDataIdle idle,(okFilled filled).1,if_pos seen]
  simp only [readPayload,here]
  rw [if_pos (by omega)]

theorem onDataWhole (whole : chunk.length = bufSize) (fresh : ¬ blankLine <:+: chunk) :
    onData s chunk = .stop .overrun := by
  have room := filled.room
  have nothing : s.buf.drop chunk.length = [] := List.drop_eq_nil_of_le (by
    rw [filled.buf,List.length_append,List.length_replicate]; omega)
  rw [onDataIdle idle,overlay,nothing,List.append_nil]
  split
  · simp only [readPayload,strstrOverrun chars fresh]
  · rename_i unseen
    have outside : ¬ okLine <:+: chunk := by
      rintro ⟨front,tail,split⟩
      have seen := foundFront s.buf split.symm
        (fun b mem => chars b (by rw [← split]; simp [mem]))
      rw [overlay,nothing,List.append_nil] at seen
      exact unseen (by simp [seen])
    rw [strstrOverrun chars outside,if_pos rfl]

end OneChunk

structure Waiting (s t : Reader) (before : List Bytes) : Prop where
  idle : t.inPayload = false
  kept : t.recvbuf = s.recvbuf ∧ t.totalbytes = s.totalbytes
  isok : s.isok = true → t.isok = true
  status : ∀ chunk ∈ before, okLine <:+: chunk → t.isok = true

theorem feedClear {before : List Bytes} {s : Reader} {text : Bytes} (idle : s.inPayload = false)
    (filled : Filled s.buf text) (chars : ∀ chunk ∈ before, ∀ b ∈ chunk, b ≠ 0)
    (clear : Clear s.isok text before) :
    ∃ t, (∀ rest, feed s (before ++ rest) = feed t rest) ∧ Waiting s t before := by
  induction before generalizing s text with
  | nil => exact ⟨s,fun _ => rfl,idle,⟨rfl,rfl⟩,id,by simp⟩
  | cons chunk before ih =>
    obtain ⟨room,silent,clear⟩ := clear
    have chars_ := chars chunk List.mem_cons_self
    have moved := onDataClear idle filled chars_ room silent
    obtain ⟨t,continues,waiting⟩ := ih (s := {s with
        buf := overlay chunk s.buf
        isok := s.isok || decide (okLine <:+: overlay chunk text)}) idle
      (overlayFilled filled chars_ room) (fun c mem => chars c (List.mem_cons_of_mem _ mem)) clear
    refine ⟨t,fun rest => ?_,waiting.idle,waiting.kept,fun ok => waiting.isok (by simp [ok]),?_⟩
    · rw [List.cons_append,feed,moved]
      exact continues rest
    · intro c mem status
      rcases List.mem_cons.mp mem with rfl | later
      · have shown : okLine <:+: overlay c text := status.trans (List.prefix_append _ _).isInfix
        exact waiting.isok (by simp [shown])
      · exact waiting.status c later status

theorem feedUnclear {before : List Bytes} {s : Reader} {text : Bytes} (idle : s.inPayload = false)
    (filled : Filled s.buf text) (chars : ∀ chunk ∈ before, ∀ b ∈ chunk, b ≠ 0)
    (sized : ∀ chunk ∈ before, chunk.length ≤ bufSize)
    (fresh : ∀ chunk ∈ before, ¬ blankLine <:+: chunk) (unclear : ¬ Clear s.isok text before)
    (rest : List Bytes) : feed s (before ++ rest) = .stop .exited ∨
      feed s (before ++ rest) = .stop .overrun := by
  induction before generalizing s text with
  | nil => exact (unclear trivial).elim
  | cons chunk before ih =>
    have chars_ := chars chunk List.mem_cons_self
    have fresh_ := fresh chunk List.mem_cons_self
    rw [List.cons_append,feed]
    rcases Nat.lt_or_eq_of_le (sized chunk List.mem_cons_self) with room | whole
    · by_cases silent : (s.isok || decide (okLine <:+: overlay chunk text)) = true →
          ¬ blankLine <:+: overlay chunk text
      · rw [onDataClear idle filled chars_ room silent]
        exact ih (s := {s with
            buf := overlay chunk s.buf
            isok := s.isok || decide (okLine <:+: overlay chunk text)}) idle
          (overlayFilled filled chars_ room)
          (fun c mem => chars c (List.mem_cons_of_mem _ mem))
          (fun c mem => sized c (List.mem_cons_of_mem _ mem))
          (fun c mem => fresh c (List.mem_cons_of_mem _ mem))
          (fun clear => unclear ⟨room,silent,clear⟩)
      · obtain ⟨seen,blank⟩ := Classical.not_imp.mp silent
        rw [onDataFalseMatch idle filled chars_ room seen (Classical.not_not.mp blank) fresh_]
        exact .inl rfl
    · rw [onDataWhole idle filled chars_ whole fresh_]
      exact .inr rfl

theorem storesPayload {s : Reader} {chunk front payload : Bytes} (idle : s.inPayload = false)
    (seen : (s.isok || found (overlay chunk s.buf) okLine) = true)
    (split : chunk = front ++ blankLine ++ payload)
    (here : strstr (overlay chunk s.buf) blankLine = .here front.length) :
    ∃ t, onData s chunk = .next t ∧ Storing t payload := by
  have width : front.length + 4 = (front ++ blankLine).length := by
    rw [List.length_append]; rfl
  have count : (chunk.length : Int) - (front.length + 4) = payload.length := by
    have total : chunk.length = front.length + 4 + payload.length := by
      rw [split,List.length_append,width]
    omega
  have stored : ((overlay chunk s.buf).drop (front.length + 4)).take payload.length = payload := by
    rw [overlay,split,List.append_assoc (front ++ blankLine),width,List.drop_left,List.take_left]
  rw [onDataIdle idle,if_pos seen]
  simp only [readPayload,here,count]
  rw [if_neg (by omega)]
  exact ⟨_,rfl,rfl,congrArg some stored,rfl⟩

theorem readHeaderEnd {s : Reader} {chunk front payload : Bytes} (idle : s.inPayload = false)
    (seen : (s.isok || found (overlay chunk s.buf) okLine) = true)
    (split : chunk = front ++ blankLine ++ payload) (text : ∀ b ∈ front, b ≠ 0)
    (first : ∀ i < front.length, ¬ blankLine <+: (front ++ blankLine).drop i) :
    ∃ t, onData s chunk = .next t ∧ Storing t payload := by
  have whole : overlay chunk s.buf = front ++ blankLine ++ (payload ++ s.buf.drop chunk.length) := by
    rw [overlay]; nth_rewrite 1 [split]; simp
  have here : strstr (overlay chunk s.buf) blankLine = .here front.length := by
    refine strstrFirst whole text blankLineNeedle (fun i below starts => first i below ?_)
    have fits : i + 4 ≤ (front ++ blankLine).length := by
      rw [List.length_append]; exact Nat.add_le_add_right (Nat.le_of_lt below) 4
    rw [whole,List.drop_append_of_le_length (by omega)] at starts
    exact List.prefix_of_prefix_length_le starts (List.prefix_append _ _) (by
      rw [List.length_drop]; exact Nat.le_sub_of_add_le' fits)
  exact storesPayload idle seen split here

/-- A response `head ++ body` cut into `before`, `chunk` and `after`: `head` is the header
with its blank line, which lies inside `chunk`, and the end of the status line lies inside
one of the chunks. -/
structure Division (head body : Bytes) (before : List Bytes) (chunk : Bytes) (after : List Bytes) :
    Prop where
  stream : before.flatten ++ (chunk ++ after.flatten) = head ++ body
  text : ∀ b ∈ head, b ≠ 0
  ends : blankLine <:+ head
  first : ∀ i < head.length, blankLine <+: head.drop i → i + 4 = head.length
  blankInside : before.flatten.length + 4 ≤ head.length ∧
    head.length ≤ before.flatten.length + chunk.length
  okInside : ∃ pre c post line rest, before ++ chunk :: after = pre ++ c :: post ∧
    head = line ++ okLine ++ rest ∧ pre.flatten.length ≤ line.length ∧
    line.length + okLine.length ≤ pre.flatten.length + c.length

theorem splitLonger {a b c d : Bytes} (same : a ++ b = c ++ d) (longer : a.length ≤ c.length) :
    ∃ m, c = a ++ m ∧ b = m ++ d := by
  rcases List.append_eq_append_iff.mp same with ⟨m,rfl,rfl⟩ | ⟨m,rfl,rfl⟩
  · exact ⟨m,rfl,rfl⟩
  · rw [List.length_append] at longer
    obtain rfl : m = [] := List.length_eq_zero_iff.mp (by omega)
    exact ⟨[],by simp,by simp⟩

section Divided
variable {head body : Bytes} {before : List Bytes} {chunk : Bytes} {after : List Bytes}
  (division : Division head body before chunk after)
include division

theorem headerEnd : ∃ front payload, head = before.flatten ++ (front ++ blankLine) ∧
    chunk = front ++ blankLine ++ payload ∧ body = payload ++ after.flatten := by
  obtain ⟨starts,ends⟩ := division.blankInside
  obtain ⟨part,head,rest⟩ := splitLonger division.stream (by omega)
  rw [head,List.length_append] at starts ends
  obtain ⟨payload,chunk,body⟩ := splitLonger rest.symm (by omega)
  have last : blankLine <:+ part := by
    have ends := division.ends
    rw [head] at ends
    exact List.suffix_of_suffix_length_le ends (List.suffix_append _ _) (by
      change 4 ≤ part.length; omega)
  obtain ⟨front,rfl⟩ := last
  exact ⟨front,payload,head,chunk,body⟩

theorem beforeText {c : Bytes} (mem : c ∈ before) : ∀ b ∈ c, b ≠ 0 := by
  obtain ⟨front,payload,head,-⟩ := headerEnd division
  refine fun b inside => division.text b ?_
  rw [head]
  exact List.mem_append_left _ (List.mem_flatten.mpr ⟨c,mem,inside⟩)

theorem beforeFresh {c : Bytes} (mem : c ∈ before) : ¬ blankLine <:+: c := by
  intro inside
  obtain ⟨front,payload,head,-⟩ := headerEnd division
  obtain ⟨x,y,same⟩ := inside.trans (List.infix_of_mem_flatten mem)
  have width : blankLine.length = 4 := rfl
  have early := division.first x.length (by
    rw [head,← same]; simp only [List.length_append]; omega) (by rw [head,← same]; simp)
  rw [head,← same] at early
  simp only [List.length_append] at early
  omega

theorem statusChunk : ∃ c front tail, c = front ++ okLine ++ tail ∧ (∀ b ∈ front, b ≠ 0) ∧
    (c ∈ before ∨ c = chunk) := by
  obtain ⟨pre,c,post,line,rest,split,head,starts,ends⟩ := division.okInside
  have stream : pre.flatten ++ (c ++ post.flatten) = line ++ (okLine ++ (rest ++ body)) := by
    have := division.stream
    rw [← List.flatten_cons,← List.flatten_append,split,head] at this
    simpa using this
  obtain ⟨front,rfl,behind⟩ := splitLonger stream starts
  rw [← List.append_assoc] at behind
  rw [List.length_append] at ends
  obtain ⟨tail,same,-⟩ := splitLonger behind.symm (by rw [List.length_append]; omega)
  refine ⟨c,front,tail,same,fun b mem => division.text b (by rw [head]; simp [mem]),?_⟩
  rcases List.append_eq_append_iff.mp split with ⟨m,rfl,chunks⟩ | ⟨m,rfl,chunks⟩
  · cases m with
    | nil => exact .inr (List.cons.inj chunks).1.symm
    | cons first m =>
      -- the status line cannot lie behind the chunk that ends the header
      obtain ⟨rfl,-⟩ := List.cons.inj chunks
      have last := division.blankInside.2
      simp only [head,List.length_append,List.flatten_append,List.flatten_cons] at last
      have width : okLine.length = 8 := rfl
      omega
  · cases m with
    | nil => exact .inr (List.cons.inj chunks).1
    | cons first m =>
      obtain ⟨rfl,-⟩ := List.cons.inj chunks
      exact .inl (by simp)

theorem feedDivided (clear : Clear false [] before) :
    ∃ t, feed start (before ++ chunk :: after) = .next t ∧ Storing t body := by
  have chars := fun c (mem : c ∈ before) => beforeText division mem
  obtain ⟨t,continues,waiting⟩ := feedClear rfl startFilled chars clear
  obtain ⟨front,payload,head,split,body⟩ := headerEnd division
  have text : ∀ b ∈ front, b ≠ 0 := fun b mem => division.text b (by rw [head]; simp [mem])
  have first : ∀ i < front.length, ¬ blankLine <+: (front ++ blankLine).drop i := by
    intro i below starts
    have last := division.first (before.flatten.length + i)
      (by rw [head]; simp only [List.length_append]; omega) (by rwa [head,List.drop_append,List.drop_eq_nil_of_le (by omega),List.nil_append,
        Nat.add_sub_cancel_left])
    simp only [head,List.length_append] at last
    have width : blankLine.length = 4 := rfl
    omega
  have seen : (t.isok || found (overlay chunk t.buf) okLine) = true := by
    obtain ⟨c,line,tail,same,chars,earlier | rfl⟩ := statusChunk division
    · rw [waiting.status c earlier ⟨line,tail,same.symm⟩,Bool.true_or]
    · rw [foundFront t.buf same chars,Bool.or_true]
  obtain ⟨u,moved,storing⟩ := readHeaderEnd waiting.idle seen split text first
  rw [continues,feed,moved,body]
  exact feedPayload storing after

theorem feedUndivided (sized : ∀ c ∈ before ++ chunk :: after, c.length ≤ bufSize)
    (unclear : ¬ Clear false [] before) : feed start (before ++ chunk :: after) = .stop .exited ∨
      feed start (before ++ chunk :: after) = .stop .overrun :=
  feedUnclear rfl startFilled (fun _ mem => beforeText division mem)
    (fun c mem => sized c (List.mem_append_left _ mem))
    (fun _ mem => beforeFresh division mem) unclear (chunk :: after)

end Divided

theorem storesBodyIff {conf : Conf} {startTime now : UInt32} {events : List Event}
    {head body : Bytes} {before : List Bytes} {chunk : Bytes} {after : List Bytes}
    (inTime : InTime conf startTime events) (early : late conf startTime now = false)
    (cut : chunks events = before ++ chunk :: after) (division : Division head body before chunk after) :
    receive conf startTime start (events ++ [⟨now,.closed⟩]) =
        some (.returned body.length (some body) .closed) ∧ NewbytesBounded start (chunks events) ↔
      Clear false [] before := by
  rw [receiveFeed start inTime,cut]
  constructor
  · rintro ⟨stored,-⟩
    by_contra unclear
    rcases feedUndivided division (cut ▸ chunksSized events) unclear with exited | overrun
    · simp [exited] at stored
    · simp [overrun] at stored
  · intro clear
    obtain ⟨t,fed,storing⟩ := feedDivided division clear
    refine ⟨?_,feedNewbytes (by simp [fed])⟩
    simp [fed,receive,early,storing.recvbuf,storing.totalbytes]

/-! A header in three chunks: the CRLF of the second meets the CRLF that the longer first one
left behind it. -/

def splitConf : Conf := [(ascii "http.timeout",ascii "10")]

def statusPart : Chunk := ⟨ascii "HTTP/1.1 200 OK\r\n",by decide⟩

def serverPart : Chunk := ⟨ascii "Server: abcde\r\n",by decide⟩

def lastPart : Chunk := ⟨ascii "A: b\r\n\r\nOK",by decide⟩

def splitHead : Bytes := ascii "HTTP/1.1 200 OK\r\nServer: abcde\r\nA: b\r\n\r\n"

def splitEvents : List Event :=
  [⟨0,.data statusPart⟩,⟨1,.interrupted⟩,⟨1,.data serverPart⟩,⟨1,.data lastPart⟩]

theorem splitDivision : Division splitHead (ascii "OK") [statusPart.val,serverPart.val]
    lastPart.val [] where
  stream := by decide +kernel
  text := by decide +kernel
  ends := by decide +kernel
  first := by decide +kernel
  blankInside := by decide +kernel
  okInside := ⟨[],statusPart.val,[serverPart.val,lastPart.val],ascii "HTTP/1.1 ",
    ascii "Server: abcde\r\nA: b\r\n\r\n",rfl,by decide +kernel,by decide +kernel,by decide +kernel⟩

theorem splitInTime : InTime splitConf 0 splitEvents where
  early := by decide +kernel
  alive := by decide +kernel

theorem splitHeaderExits : InTime splitConf 0 splitEvents ∧ late splitConf 0 2 = false ∧
    chunks splitEvents = [statusPart.val,serverPart.val] ++ lastPart.val :: [] ∧
    Division splitHead (ascii "OK") [statusPart.val,serverPart.val] lastPart.val [] ∧
    newbytes ⟨overlay statusPart.val start.buf,true,false,none,0⟩ serverPart.val = some (-2) ∧
    receive splitConf 0 start (splitEvents ++ [⟨2,.closed⟩]) = some .exited :=
  ⟨splitInTime,by decide +kernel,rfl,splitDivision,by decide +kernel,by decide +kernel⟩

def headersPart : Chunk := ⟨ascii "Server: abcde\r\nA: b\r\n\r\nOK",by decide⟩

theorem joinedDivision : Division splitHead (ascii "OK") [statusPart.val] headersPart.val [] where
  stream := by decide +kernel
  text := splitDivision.text
  ends := splitDivision.ends
  first := splitDivision.first
  blankInside := by decide +kernel
  okInside := ⟨[],statusPart.val,[headersPart.val],ascii "HTTP/1.1 ",
    ascii "Server: abcde\r\nA: b\r\n\r\n",rfl,by decide +kernel,by decide +kernel,by decide +kernel⟩

theorem storesBodyIffJoined :
    receive splitConf 0 start ([⟨0,.data statusPart⟩,⟨1,.data headersPart⟩] ++ [⟨2,.closed⟩]) =
      some (.returned (ascii "OK").length (some (ascii "OK")) .closed) ∧
    NewbytesBounded start (chunks [⟨0,.data statusPart⟩,⟨1,.data headersPart⟩]) :=
  (storesBodyIff ⟨by decide +kernel,by decide +kernel⟩ (by decide +kernel) rfl joinedDivision).mpr
    (by decide +kernel)

end RfidStation.Segments
