import RfidStation.MsgLoop
import RfidStation.SendQueue

/-! Delivery from the receivers to the merger: the sender of each role (receive/sender.c) and
msg_loop (server.c), joined by connections that carry what `send` accepted. A cell is a byte;
cells of any other type let a packet carry a mark that tells it from an equal one. -/
namespace RfidStation.Delivery
open Config Buffers SendQueue MsgLoop

structure System (β : Type) where
  senders : Bool → Sender β
  loop : Loop β

inductive Act (β : Type) (size : Nat) where
  | addToQueue (r : Bool) (packet : {cells : List β // cells.length = size})
  | connect (r : Bool) (ok : Bool)
  | take (r : Bool)
  | send (r : Bool) (sendedlen : Int)
  | msgLoop
  deriving DecidableEq, Repr

variable {β : Type} {size : Nat} {zero : β}

def initial : System β := ⟨fun _ => SendQueue.initial,MsgLoop.initial⟩

def putOn (l : Loop β) (fd : Nat) (cells : List β) (short : Bool) : Loop β :=
  if short then finish (deliver l fd cells) fd else deliver l fd cells

def sendOn (s : System β) (r : Bool) (sendedlen : Int) : Loop β :=
  match (s.senders r).sockfd with
  | some fd => putOn s.loop fd (accepted (s.senders r) sendedlen)
      (sendedlen < (s.senders r).sendbuf.cells.length)
  | none => s.loop

def step (conf : Conf) (zero : β) (s : System β) : Act β size → Option (System β)
  | .addToQueue r packet =>
    (SendQueue.step (packetSize conf) zero (s.senders r) (.addToQueue packet.val)).map
      (fun sender => {s with senders := setAt s.senders r sender})
  | .connect r ok =>
    (SendQueue.step (packetSize conf) zero (s.senders r)
      (.connect (if ok then some s.loop.opened else none))).map
      (fun sender => ⟨setAt s.senders r sender,if ok then connect s.loop r else s.loop⟩)
  | .take r =>
    (SendQueue.step (packetSize conf) zero (s.senders r) .take).map
      (fun sender => {s with senders := setAt s.senders r sender})
  | .send r sendedlen =>
    (SendQueue.step (packetSize conf) zero (s.senders r) (.send sendedlen)).map
      (fun sender => ⟨setAt s.senders r sender,sendOn s r sendedlen⟩)
  | .msgLoop => (MsgLoop.step size s.loop).map (fun loop => {s with loop := loop})

def line (l : Loop β) (r : Bool) : List Nat :=
  (l.fds r).toList ++ l.backlog.filter (fun fd => (l.conns fd).role = r)

variable {x y : Sender β} {l m : Loop β} {r role : Bool}

theorem lineCongr (fds : m.fds r = l.fds r) (backlog : m.backlog = l.backlog)
    (roles : ∀ fd ∈ l.backlog, (m.conns fd).role = (l.conns fd).role) : line m r = line l r := by
  rw [line,line,fds,backlog]
  congr 1
  exact List.filter_congr (fun fd mem => by rw [roles fd mem])

theorem lineTake {fd : Nat} (fds : m.fds = l.fds) (backlog : m.backlog = l.backlog)
    (conns : m.conns = setAt l.conns fd {l.conns fd with unread := (l.conns fd).unread.drop size}) :
    line m r = line l r := by
  refine lineCongr (by rw [fds]) backlog (fun id _ => ?_)
  by_cases same : id = fd
  · rw [conns,same,setAtSame]
  · rw [conns,setAtOther _ _ same]

theorem lineConnect (role : Bool) (known : ∀ fd ∈ l.backlog, fd < l.opened) :
    line (connect l role) r = line l r ++ if role = r then [l.opened] else [] := by
  have same : l.backlog.filter (fun fd => ((connect l role).conns fd).role = r) =
      l.backlog.filter (fun fd => (l.conns fd).role = r) := by
    apply List.filter_congr
    intro fd mem
    simp only [connect,setAtOther l.conns _ (Nat.ne_of_lt (known fd mem))]
  have new : ((connect l role).conns l.opened).role = role := by simp [connect]
  have parts : line (connect l role) r = (l.fds r).toList ++
      (l.backlog ++ [l.opened]).filter (fun fd => ((connect l role).conns fd).role = r) := rfl
  rw [parts,List.filter_append,same,← List.append_assoc,List.filter_singleton,new]
  simp only [line,cond_eq_ite,decide_eq_true_eq]

theorem putOnConn (l : Loop β) (fd : Nat) (cells : List β) (short : Bool) :
    (putOn l fd cells short).conns fd = {l.conns fd with
      unread := (l.conns fd).unread ++ cells
      ended := short || (l.conns fd).ended} := by
  cases short <;> simp [putOn,finish,deliver]

theorem putOnOther (l : Loop β) {fd other : Nat} (cells : List β) (short : Bool)
    (different : other ≠ fd) : (putOn l fd cells short).conns other = l.conns other := by
  cases short <;> simp [putOn,finish,deliver,setAtOther _ _ different]

theorem linePutOn (l : Loop β) (fd : Nat) (cells : List β) (short : Bool) :
    line (putOn l fd cells short) r = line l r := by
  refine lineCongr (by cases short <;> rfl) (by cases short <;> rfl) (fun other _ => ?_)
  by_cases same : other = fd
  · rw [same,putOnConn]
  · rw [putOnOther _ _ _ same]

variable [DecidableEq β]

def inFlight (size : Nat) (zero : β) (l : Loop β) (r : Bool) : List (List β) :=
  (line l r).flatMap (fun fd => dataFrames size zero (l.conns fd).unread)

def handed (size : Nat) (zero : β) (l : Loop β) (r : Bool) : List (List β) :=
  (l.taken r).filter (· ≠ heartbeat size zero)

structure Linked (size : Nat) (zero : β) (x : Sender β) (l : Loop β) (r : Bool) : Prop where
  sender : Framed size zero x
  known : ∀ fd ∈ line l r, fd < l.opened ∧ (l.conns fd).role = r
  distinct : (line l r).Nodup
  current : ∀ fd, x.sockfd = some fd → ∃ older, line l r = older ++ [fd] ∧
    (l.conns fd).ended = false ∧ size ∣ (l.conns fd).unread.length
  balance : handed size zero l r ++ inFlight size zero l r = batchFrames size zero x.sent

theorem initialLinked (pos : 0 < size) (r : Bool) :
    Linked size zero SendQueue.initial MsgLoop.initial r :=
  ⟨initialFramed pos,by simp [line,MsgLoop.initial],by simp [line,MsgLoop.initial],
    by simp [SendQueue.initial],by simp [MsgLoop.initial,SendQueue.initial,line,handed,inFlight,
      batchFrames]⟩

theorem inFlightCongr (lines : line m r = line l r)
    (conns : ∀ fd ∈ line l r, (m.conns fd).unread = (l.conns fd).unread) :
    inFlight size zero m r = inFlight size zero l r := by
  rw [inFlight,lines]
  exact List.flatMap_congr (fun fd mem => by rw [conns fd mem])

theorem linkedElsewhere (linked : Linked size zero x l r) (lines : line m r = line l r)
    (opened : l.opened ≤ m.opened) (conns : ∀ fd ∈ line l r, m.conns fd = l.conns fd)
    (taken : m.taken r = l.taken r) : Linked size zero x m r := by
  refine ⟨linked.sender,?_,by rw [lines]; exact linked.distinct,?_,?_⟩
  · intro fd mem
    rw [lines] at mem
    rw [conns fd mem]
    exact ⟨Nat.lt_of_lt_of_le (linked.known fd mem).1 opened,(linked.known fd mem).2⟩
  · intro fd using_it
    obtain ⟨older,ends,alive,whole⟩ := linked.current fd using_it
    rw [lines,conns fd (by rw [ends]; simp)]
    exact ⟨older,ends,alive,whole⟩
  · rw [handed,taken,inFlightCongr lines (fun fd mem => by rw [conns fd mem])]
    exact linked.balance

theorem linkedSender (linked : Linked size zero x l r) (framed : Framed size zero y)
    (sockfd : y.sockfd = x.sockfd) (sent : y.sent = x.sent) : Linked size zero y l r :=
  ⟨framed,linked.known,linked.distinct,by rw [sockfd]; exact linked.current,
    by rw [sent]; exact linked.balance⟩

theorem connectLinked (pos : 0 < size) (linked : Linked size zero x l r)
    (known : ∀ fd ∈ l.backlog, fd < l.opened) (framed : Framed size zero y)
    (sockfd : y.sockfd = some l.opened) (sent : y.sent = x.sent) :
    Linked size zero y (connect l r) r := by
  have lines := lineConnect (r := r) r known
  rw [if_pos rfl] at lines
  have old (fd) (mem : fd ∈ line l r) : (connect l r).conns fd = l.conns fd :=
    setAtOther _ _ (Nat.ne_of_lt (linked.known fd mem).1)
  refine ⟨framed,?_,?_,?_,?_⟩
  · intro fd mem
    rw [lines] at mem
    rcases List.mem_append.mp mem with before | new
    · rw [old fd before]
      exact ⟨Nat.lt_succ_of_lt (linked.known fd before).1,(linked.known fd before).2⟩
    · rw [List.mem_singleton.mp new]
      simp [connect]
  · rw [lines]
    refine List.nodup_append.mpr ⟨linked.distinct,by simp,?_⟩
    intro fd mem new last same
    rw [same,List.mem_singleton.mp last] at mem
    exact Nat.lt_irrefl _ (linked.known _ mem).1
  · intro fd using_it
    rw [sockfd] at using_it
    cases Option.some.inj using_it
    exact ⟨_,lines,by simp [connect],by simp [connect]⟩
  · have nothing : dataFrames size zero ((connect l r).conns l.opened).unread = [] := by
      simp [connect,dataFramesShort (s := []) pos]
    have carried : inFlight size zero (connect l r) r = inFlight size zero l r := by
      rw [inFlight,lines,List.flatMap_append,List.flatMap_singleton,nothing,List.append_nil]
      exact List.flatMap_congr (fun fd mem => by rw [old fd mem])
    rw [carried,sent]
    exact linked.balance

theorem connectElsewhere (linked : Linked size zero x l r) (other : role ≠ r)
    (known : ∀ fd ∈ l.backlog, fd < l.opened) : Linked size zero x (connect l role) r := by
  have lines := lineConnect (r := r) role known
  rw [if_neg other,List.append_nil] at lines
  exact linkedElsewhere linked lines (Nat.le_succ _)
    (fun fd mem => setAtOther _ _ (Nat.ne_of_lt (linked.known fd mem).1)) rfl

theorem putOnLinked (pos : 0 < size) (linked : Linked size zero x l r) {fd : Nat}
    (using_it : x.sockfd = some fd) (cells : List β) (short : Bool) (framed : Framed size zero y)
    (sockfd : y.sockfd = if short then none else some fd)
    (whole : short = false → size ∣ cells.length)
    (sent : batchFrames size zero y.sent =
      batchFrames size zero x.sent ++ dataFrames size zero cells) :
    Linked size zero y (putOn l fd cells short) r := by
  have lines := linePutOn (r := r) l fd cells short
  obtain ⟨older,ends,alive,framing⟩ := linked.current fd using_it
  have last : fd ∉ older := by
    have distinct := linked.distinct
    rw [ends] at distinct
    exact fun mem => (List.nodup_append.mp distinct).2.2 fd mem fd (by simp) rfl
  have others (id) (mem : id ∈ older) : (putOn l fd cells short).conns id = l.conns id :=
    putOnOther _ _ _ (fun same => last (same ▸ mem))
  refine ⟨framed,?_,by rw [lines]; exact linked.distinct,?_,?_⟩
  · intro id mem
    rw [lines] at mem
    have before := linked.known id mem
    by_cases same : id = fd
    · subst id
      rw [putOnConn]
      exact ⟨by cases short <;> exact before.1,before.2⟩
    · rw [putOnOther _ _ _ same]
      exact ⟨by cases short <;> exact before.1,before.2⟩
  · intro id now
    rw [sockfd] at now
    cases short with
    | true => contradiction
    | false =>
      cases Option.some.inj now
      rw [lines,putOnConn,Bool.false_or,List.length_append]
      exact ⟨older,ends,alive,Nat.dvd_add framing (whole rfl)⟩
  · have taken : handed size zero (putOn l fd cells short) r = handed size zero l r := by
      cases short <;> rfl
    have before : inFlight size zero l r = older.flatMap (fun id =>
        dataFrames size zero (l.conns id).unread) ++ dataFrames size zero (l.conns fd).unread := by
      rw [inFlight,ends,List.flatMap_append,List.flatMap_singleton]
    have after : inFlight size zero (putOn l fd cells short) r =
        inFlight size zero l r ++ dataFrames size zero cells := by
      rw [before,inFlight,lines,ends,List.flatMap_append,List.flatMap_singleton,putOnConn,
        dataFramesAppend pos framing,← List.append_assoc]
      congr 2
      exact List.flatMap_congr (fun id mem => by rw [others id mem])
    rw [taken,after,sent,← linked.balance,List.append_assoc]

theorem putOnElsewhere (linked : Linked size zero x l r) (cells : List β) (short : Bool) {fd : Nat}
    (role : (l.conns fd).role ≠ r) : Linked size zero x (putOn l fd cells short) r :=
  linkedElsewhere linked (linePutOn l fd cells short) (by cases short <;> exact Nat.le_refl _)
    (fun id mem => putOnOther _ _ _ (fun same => role (same ▸ (linked.known id mem).2)))
    (by cases short <;> rfl)

theorem dropLinked (linked : Linked size zero x l r) (front : List Nat)
    (lines : line l r = front ++ line m r) (conns : m.conns = l.conns) (opened : m.opened = l.opened)
    (taken : m.taken = l.taken) (kept : ∀ fd ∈ front, x.sockfd ≠ some fd)
    (nothing : ∀ fd ∈ front, dataFrames size zero (l.conns fd).unread = []) :
    Linked size zero x m r := by
  refine ⟨linked.sender,?_,?_,?_,?_⟩
  · intro fd mem
    rw [conns,opened]
    exact linked.known fd (by rw [lines]; exact List.mem_append_right _ mem)
  · have distinct := linked.distinct
    rw [lines] at distinct
    exact (List.nodup_append.mp distinct).2.1
  · intro fd using_it
    obtain ⟨older,ends,alive,whole⟩ := linked.current fd using_it
    rw [conns]
    rcases List.eq_nil_or_concat (line m r) with empty | ⟨rest,last,tail⟩
    · rw [empty,List.append_nil,ends] at lines
      exact absurd using_it (kept fd (by rw [← lines]; simp))
    · rw [ends,tail,List.concat_eq_append,← List.append_assoc] at lines
      have same := List.append_inj_right' lines rfl
      rw [List.concat_eq_append] at tail
      exact ⟨rest,by rw [tail,← same],alive,whole⟩
  · have carried : inFlight size zero l r = inFlight size zero m r := by
      rw [inFlight,inFlight,lines,List.flatMap_append,conns,List.flatMap_eq_nil_iff.mpr nothing,
        List.nil_append]
    rw [handed,taken,← carried]
    exact linked.balance

theorem takeLinked (pos : 0 < size) (linked : Linked size zero x l r) {fd : Nat} (rest : List Nat)
    (oldest : line l r = fd :: rest) (enough : size ≤ (l.conns fd).unread.length)
    (lines : line m r = line l r) (opened : m.opened = l.opened)
    (conns : m.conns = setAt l.conns fd {l.conns fd with unread := (l.conns fd).unread.drop size})
    (taken : m.taken r = l.taken r ++ [(l.conns fd).unread.take size]) :
    Linked size zero x m r := by
  have here : m.conns fd = {l.conns fd with unread := (l.conns fd).unread.drop size} := by
    rw [conns,setAtSame]
  have others (id) (different : id ≠ fd) : m.conns id = l.conns id := by
    rw [conns,setAtOther _ _ different]
  have fresh : fd ∉ rest := by
    have distinct := linked.distinct
    rw [oldest] at distinct
    exact (List.nodup_cons.mp distinct).1
  refine ⟨linked.sender,?_,by rw [lines]; exact linked.distinct,?_,?_⟩
  · intro id mem
    rw [lines] at mem
    have before := linked.known id mem
    rw [opened]
    by_cases same : id = fd
    · subst id; rw [here]; exact before
    · rw [others id same]; exact before
  · intro id using_it
    obtain ⟨older,ends,alive,whole⟩ := linked.current id using_it
    rw [lines]
    by_cases same : id = fd
    · subst id
      rw [here,List.length_drop]
      exact ⟨older,ends,alive,Nat.dvd_sub whole (Nat.dvd_refl size)⟩
    · rw [others id same]
      exact ⟨older,ends,alive,whole⟩
  · have parts := Blocks.blocksCons pos enough
    have before : inFlight size zero l r = dataFrames size zero (l.conns fd).unread ++
        rest.flatMap (fun id => dataFrames size zero (l.conns id).unread) := by
      rw [inFlight,oldest,List.flatMap_cons]
    have after : inFlight size zero m r = dataFrames size zero ((l.conns fd).unread.drop size) ++
        rest.flatMap (fun id => dataFrames size zero (l.conns id).unread) := by
      rw [inFlight,lines,oldest,List.flatMap_cons,here]
      congr 1
      exact List.flatMap_congr (fun id mem => by
        rw [others id (fun same => fresh (same ▸ mem))])
    rw [← linked.balance,before,after,handed,handed,taken,List.filter_append,List.append_assoc,
      ← List.append_assoc _ (dataFrames size zero _)]
    congr 2
    rw [dataFrames,dataFrames,parts,← List.filter_append]
    rfl

def replaced (l : Loop β) : Option Nat :=
  match l.pc, l.listenReady, l.backlog with
  | .accept, true, newfd :: _ => l.fds (l.conns newfd).role
  | _, _, _ => none

theorem acceptLinked (linked : Linked size zero x l r) (here : l.pc = .accept)
    (h : accept l = some m)
    (drained : ∀ fd, replaced l = some fd → dataFrames size zero (l.conns fd).unread = []) :
    Linked size zero x m r := by
  unfold accept at h
  split at h
  · rename_i pending
    split at h <;> try contradiction
    rename_i newfd rest backlog
    cases Option.some.inj h
    simp only [replaced,here,pending,backlog] at drained
    by_cases own : (l.conns newfd).role = r
    · subst r
      have after : line l (l.conns newfd).role = (l.fds (l.conns newfd).role).toList ++
          (newfd :: rest.filter (fun fd => (l.conns fd).role = (l.conns newfd).role)) := by
        rw [line,backlog,List.filter_cons_of_pos (by simp)]
      refine dropLinked linked (l.fds (l.conns newfd).role).toList ?_ rfl rfl rfl ?_ ?_
      · rw [after]; simp [line]
      · intro fd old using_it
        obtain ⟨older,ends,_⟩ := linked.current fd using_it
        have distinct := linked.distinct
        rw [Option.mem_toList.mp old,Option.toList_some,List.singleton_append] at after
        rw [after] at ends distinct
        cases older with
        | nil => simp at ends
        | cons first older =>
          obtain ⟨_,tails⟩ := List.cons.inj ends
          exact (List.nodup_cons.mp distinct).1 (by rw [tails]; simp)
      · intro fd old
        exact drained fd (Option.mem_toList.mp old)
    · refine linkedElsewhere linked ?_ (Nat.le_refl _) (fun _ _ => rfl) rfl
      simp only [line,backlog]
      rw [setAtOther _ _ (Ne.symm own),List.filter_cons_of_neg (by simpa using own)]
  · cases Option.some.inj h
    exact linkedElsewhere linked rfl (Nat.le_refl _) (fun _ _ => rfl) rfl

theorem readLinked (pos : 0 < size) (linked : Linked size zero x l r) {i : Bool}
    (known : ∀ fd, l.fds i = some fd → (l.conns fd).role = i)
    (h : readFd size l i = some m) : Linked size zero x m r := by
  unfold readFd at h
  split at h
  · split at h
    · cases Option.some.inj h
      exact linkedElsewhere linked rfl (Nat.le_refl _) (fun _ _ => rfl) rfl
    · rename_i fd slot
      dsimp only at h
      split at h
      · cases Option.some.inj h
        exact linkedElsewhere linked rfl (Nat.le_refl _) (fun _ _ => rfl) rfl
      · split at h
        · rename_i enough
          have next := (Option.some.inj h).symm
          have lines : line m r = line l r := lineTake (by rw [next]) (by rw [next]) (by rw [next])
          by_cases own : i = r
          · subst r
            refine takeLinked pos linked (l.backlog.filter (fun fd => (l.conns fd).role = i))
              ?_ enough lines (by rw [next]) (by rw [next]) (by simp [next])
            rw [line,slot]; rfl
          · refine linkedElsewhere linked lines (by rw [next]) (fun id mem => ?_)
              (by rw [next]; exact setAtOther _ _ (Ne.symm own))
            rw [next]
            refine setAtOther _ _ (fun same => own ?_)
            rw [← known fd slot,← same]; exact (linked.known id mem).2
        · split at h <;> try contradiction
          rename_i less ended
          cases Option.some.inj h
          by_cases own : i = r
          · subst i
            refine dropLinked linked [fd] ?_ rfl rfl rfl ?_ ?_
            · simp [line,slot]
            · intro id mem using_it
              obtain ⟨older,ends,alive,_⟩ := linked.current id using_it
              rw [List.mem_singleton.mp mem,ended] at alive
              contradiction
            · intro id mem
              rw [List.mem_singleton.mp mem]
              exact dataFramesShort (Nat.lt_of_not_le less)
          · refine linkedElsewhere linked ?_ (Nat.le_refl _) (fun _ _ => rfl) rfl
            simp only [line,setAtOther _ _ (Ne.symm own)]
  · cases Option.some.inj h
    exact linkedElsewhere linked rfl (Nat.le_refl _) (fun _ _ => rfl) rfl

theorem msgLoopLinked (pos : 0 < size) (linked : Linked size zero x l r)
    (known : ∀ i fd, l.fds i = some fd → (l.conns fd).role = i)
    (drained : ∀ fd, replaced l = some fd → dataFrames size zero (l.conns fd).unread = [])
    (h : MsgLoop.step size l = some m) : Linked size zero x m r := by
  unfold MsgLoop.step at h
  split at h
  · unfold poll at h
    split at h
    · cases Option.some.inj h
      exact linkedElsewhere linked rfl (Nat.le_refl _) (fun _ _ => rfl) rfl
    · split at h <;> try contradiction
      cases Option.some.inj h
      exact linkedElsewhere linked rfl (Nat.le_refl _) (fun _ _ => rfl) rfl
  · rename_i here
    exact acceptLinked linked here h drained
  · exact readLinked pos linked (known _) h
  · contradiction

/-- A failed send accepted no whole packet, and an accept closes no connection that still
holds a packet. -/
def Careful (size : Nat) (zero : β) (s : System β) : Act β size → Prop
  | .send r sendedlen => sendedlen < (s.senders r).sendbuf.cells.length → sendedlen < size
  | .msgLoop => ∀ fd ∈ replaced s.loop, dataFrames size zero (s.loop.conns fd).unread = []
  | _ => True

instance (s : System β) (a : Act β size) : Decidable (Careful size zero s a) :=
  match a with
  | .send _ _ | .msgLoop => by unfold Careful; infer_instance
  | .addToQueue _ _ | .connect _ _ | .take _ => isTrue trivial

def AllLinked (size : Nat) (zero : β) (s : System β) : Prop :=
  ∀ r, Linked size zero (s.senders r) s.loop r

theorem slotRole {s : System β} (linked : AllLinked size zero s) (i fd)
    (slot : s.loop.fds i = some fd) : (s.loop.conns fd).role = i :=
  ((linked i).known fd (by simp [line,slot])).2

theorem backlogKnown {s : System β} (linked : AllLinked size zero s) :
    ∀ fd ∈ s.loop.backlog, fd < s.loop.opened := by
  intro fd mem
  exact ((linked (s.loop.conns fd).role).known fd (by simp [line,mem])).1

theorem stepLinked {conf : Conf} (pos : 0 < size) (same : packetSize conf = size)
    {s t : System β} {a : Act β size} (linked : AllLinked size zero s)
    (careful : Careful size zero s a) (h : step conf zero s a = some t) : AllLinked size zero t := by
  cases a with
  | addToQueue r packet =>
    simp only [step,same] at h
    obtain ⟨sender,moved,rfl⟩ := Option.map_eq_some_iff.mp h
    have framed := stepFramed pos (linked r).sender (fun buf is => by
      cases is; exact packet.property) moved
    obtain rfl := stepAdd moved
    intro q
    by_cases own : q = r
    · subst q
      simp only [setAtSame]
      exact linkedSender (linked r) framed rfl rfl
    · simp only [setAtOther _ _ own]
      exact linked q
  | connect r ok =>
    simp only [step,same] at h
    obtain ⟨sender,moved,rfl⟩ := Option.map_eq_some_iff.mp h
    have framed := stepFramed pos (linked r).sender (by simp) moved
    obtain ⟨here,⟨busy,-⟩ | ⟨-,⟨failed,rfl⟩ | ⟨n,opened,rfl⟩⟩⟩ := stepConnect moved
    · simp [(linked r).sender.connected.mpr here] at busy
    · have failed : ok = false := by simpa using failed
      intro q
      simp only [failed,Bool.false_eq_true,if_false]
      by_cases own : q = r
      · subst q; simp only [setAtSame]; exact linked r
      · simp only [setAtOther _ _ own]; exact linked q
    · obtain ⟨ok,same⟩ := Option.ite_none_right_eq_some.mp opened
      obtain rfl := Option.some.inj same
      intro q
      simp only [ok,if_true]
      by_cases own : q = r
      · subst q
        simp only [setAtSame]
        exact connectLinked pos (linked r) (backlogKnown linked) framed rfl rfl
      · simp only [setAtOther _ _ own]
        exact connectElsewhere (linked q) (Ne.symm own) (backlogKnown linked)
  | take r =>
    simp only [step,same] at h
    obtain ⟨sender,moved,rfl⟩ := Option.map_eq_some_iff.mp h
    have framed := stepFramed pos (linked r).sender (by simp) moved
    obtain ⟨-,rfl⟩ := stepTake moved
    intro q
    by_cases own : q = r
    · subst q
      simp only [setAtSame]
      exact linkedSender (linked r) framed (takeSockfd _) (takeSent _)
    · simp only [setAtOther _ _ own]
      exact linked q
  | send r sendedlen =>
    simp only [step,same] at h
    obtain ⟨sender,moved,rfl⟩ := Option.map_eq_some_iff.mp h
    have framed := stepFramed pos (linked r).sender (by simp) moved
    obtain ⟨here,rfl⟩ := stepSend moved
    obtain ⟨fd,using_it⟩ : ∃ fd, (s.senders r).sockfd = some fd := by
      refine Option.ne_none_iff_exists'.mp (fun free => ?_)
      have := (linked r).sender.connected.mp free
      simp [here.1] at this
    obtain ⟨older,ends,_⟩ := (linked r).current fd using_it
    have role := ((linked r).known fd (by rw [ends]; simp)).2
    intro q
    simp only [sendOn,using_it]
    by_cases own : q = r
    · subst q
      simp only [setAtSame]
      refine putOnLinked pos (linked r) using_it _ _ framed ?_ ?_ ?_
      · simp only [decide_eq_true_eq]; exact afterSendSockfd using_it sendedlen
      · intro full
        have whole := (linked r).sender.pending
        simp only [Sender.pending,Sender.unsent,here.1,true_or,if_true] at whole
        rw [acceptedFull (by simpa using full)]
        exact whole
      · exact afterSendFrames pos careful
    · simp only [setAtOther _ _ own]
      exact putOnElsewhere (linked q) _ _ (by rw [role]; exact Ne.symm own)
  | msgLoop =>
    simp only [step] at h
    obtain ⟨loop,moved,rfl⟩ := Option.map_eq_some_iff.mp h
    exact fun r => msgLoopLinked pos (linked r) (slotRole linked) careful moved

def Delivered (size : Nat) (zero : β) (s : System β) (r : Bool) : Prop :=
  handed size zero s.loop r ++ inFlight size zero s.loop r =
    batchFrames size zero (s.senders r).sent ∧
  batchFrames size zero (s.senders r).sent ++ dataFrames size zero (s.senders r).pending ++
    dataFrames size zero (s.senders r).queue.cells =
      (s.senders r).added.filter (· ≠ heartbeat size zero)

/-- In every run whose steps are careful, every packet is delivered once. -/
theorem deliveredOnce (conf : Conf) (zero : β) (positive : 1 ≤ size)
    (same : packetSize conf = size) (acts : List (Act β size))
    (careful : Runs.Meets (step conf zero) (Careful size zero) initial acts) :
    Runs.Always (step conf zero) (fun s => ∀ r, Delivered size zero s r) initial acts := by
  refine Runs.alwaysUnder (I := AllLinked size zero) ?_ ?_ ?_ careful
  · exact fun s linked r => ⟨(linked r).balance,(linked r).sender.inOrder⟩
  · exact fun s a t linked careful h => stepLinked positive same linked careful h
  · exact fun r => initialLinked positive r

def twoBytes : Conf := addConfig [] (Cstr.ascii "nrf.RX_PLOAD_WIDTH") (Cstr.ascii "1")

def fives : {cells : List UInt8 // cells.length = 2} := ⟨[5,5],rfl⟩

def sixes : {cells : List UInt8 // cells.length = 2} := ⟨[6,6],rfl⟩

def sentAgain : List (Act UInt8 2) :=
  [.addToQueue false fives,.connect false true,.take false,.send false 1,.connect false true,
    .take false,.send false 2,.msgLoop,.msgLoop,.msgLoop,.msgLoop,.msgLoop,.msgLoop,.msgLoop]

theorem deliveredOnceAgain :
    Runs.Always (step twoBytes 0) (fun s => ∀ r, Delivered 2 (0 : UInt8) s r) initial sentAgain :=
  deliveredOnce twoBytes 0 (by decide) (by decide) sentAgain (by decide)

def ExactlyOnce (conf : Conf) (size : Nat) (zero : β) (acts : List (Act β size)) : Prop :=
  ∀ s, Runs.exec (step conf zero) initial acts = some s → ∀ r, inFlight size zero s.loop r = [] →
    handed size zero s.loop r = batchFrames size zero (s.senders r).sent

def partlySent : List (Act UInt8 2) :=
  [.addToQueue false fives,.addToQueue false sixes,.connect false true,.msgLoop,.msgLoop,.msgLoop,
    .msgLoop,.take false,.send false 2,.msgLoop,.msgLoop,.msgLoop,.msgLoop,.connect false true,
    .take false,.send false 4,.msgLoop,.msgLoop,.msgLoop,.msgLoop,.msgLoop,.msgLoop,.msgLoop,.msgLoop]

def leftUnread : List (Act UInt8 2) :=
  [.addToQueue false fives,.connect false true,.take false,.send false 2,.take false,
    .send false (-1),.connect false true,.msgLoop,.msgLoop,.msgLoop,.msgLoop,.msgLoop,.msgLoop]

theorem notExactlyOnce {conf : Conf} {acts : List (Act β size)} {taken sent : List (List β)}
    (seen : (Runs.exec (step conf zero) initial acts).map (fun s => (inFlight size zero s.loop false,
      handed size zero s.loop false,batchFrames size zero (s.senders false).sent)) =
        some ([],taken,sent)) (differ : taken ≠ sent) : ¬ ExactlyOnce conf size zero acts := by
  intro once
  obtain ⟨s,run,same⟩ := Option.map_eq_some_iff.mp seen
  obtain ⟨drained,parts⟩ := Prod.mk.inj same
  obtain ⟨got,reported⟩ := Prod.mk.inj parts
  exact differ (got.symm.trans ((once s run false drained).trans reported))

theorem resentOrLost : packetSize twoBytes = 2 ∧
    ¬ ExactlyOnce twoBytes 2 (0 : UInt8) partlySent ∧
    ¬ ExactlyOnce twoBytes 2 (0 : UInt8) leftUnread :=
  ⟨by decide,
    @notExactlyOnce _ _ _ _ _ _ [[5,5],[5,5],[6,6]] [[5,5],[6,6]] (by decide) (by decide),
    @notExactlyOnce _ _ _ _ _ _ [] [[5,5]] (by decide) (by decide)⟩

end RfidStation.Delivery
