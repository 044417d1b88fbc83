import RfidStation.Nrf
import RfidStation.Lib.Memory
import RfidStation.Lib.Runs

/-! The driver of the radio over its memory (receive/nrf.c, and SPI_write_buf of
send/nrf_simple.c). A transfer on the SPI bus goes both ways: wiringPiSPIDataRW puts what the
radio answers in the place of what was sent. -/
namespace RfidStation.Exchange
open Cstr Config Nrf
open Receiver (nrfConf)
open Memory (slice write Apart)

inductive Event where
  | ce (state : Bool)
  | csn (state : Bool)
  | mosi (value : UInt8)
  deriving DecidableEq, Repr

/-- What the radio shifts out while it takes the last byte of the log. -/
abbrev Radio := List Event → UInt8

structure Driver where
  mem : Nat → UInt8
  log : List Event

abbrev Malloc := Driver → Nat → Nat

/- TX_ADDRESS and RX_ADDRESS point at blocks of TX_ADR_WIDTH and RX_ADR_WIDTH bytes. -/
structure Globals where
  txAddress : Nat
  txAdrWidth : Nat
  rxAddress : Nat
  rxAdrWidth : Nat

def replies (radio : Radio) : List Event → Bytes → Bytes
  | _, [] => []
  | log, b :: rest => radio (log ++ [.mosi b]) :: replies radio (log ++ [.mosi b]) rest

variable (radio : Radio) (malloc : Malloc) (d : Driver)

def dataRW (data len : Nat) : Driver :=
  let sent := slice d.mem data len
  ⟨write d.mem data (replies radio d.log sent),d.log ++ sent.map .mosi⟩

def ce (state : Bool) : Driver := {d with log := d.log ++ [.ce state]}

def csn (state : Bool) : Driver := {d with log := d.log ++ [.csn state]}

-- The answer goes to the parameter, a variable of this call.
def spiWriteByte (value : UInt8) : Driver := {d with log := d.log ++ [.mosi value]}

def spiReadByte : UInt8 × Driver :=
  let d := spiWriteByte d 0xCC
  (radio d.log,d)

def spiWriteReg (reg value : UInt8) : Driver :=
  csn (spiWriteByte (spiWriteByte (csn d false) reg) value) true

def spiRead (reg : UInt8) : UInt8 × Driver :=
  let (regVal,d) := spiReadByte radio (spiWriteByte (csn d false) reg)
  (regVal,csn d true)

def spiBuf (reg : UInt8) (buf : Nat) (bytes : UInt8) : Driver :=
  csn (dataRW radio (spiWriteByte (csn d false) reg) buf bytes.toNat) true

def spiReadBuf (reg : UInt8) (buf : Nat) (bytes : UInt8) : Driver := spiBuf radio d reg buf bytes

def spiWriteBuf (reg : UInt8) (buf : Nat) (bytes : UInt8) : Driver := spiBuf radio d reg buf bytes

def spiWriteBufSafe (reg : UInt8) (buf : Nat) (bytes : UInt8) : Driver :=
  let copied := malloc d bytes.toNat
  spiWriteBuf radio {d with mem := write d.mem copied (slice d.mem buf bytes.toNat)} reg copied bytes

def flushRx : Driver := csn (spiWriteReg (csn d false) Nrf.flushRx 0) true

variable (conf : Conf) (g : Globals) (station : UInt8)

-- init_NRF24L01 from `begin` to the reading of CONFIG.
def initBegin : UInt8 × Driver :=
  let d := spiWriteReg d (writeReg + config) (regConf conf "CONFIG_intr_mask")
  let d := spiWriteReg d (writeReg + status) (regConf conf "CONFIG_clear_intr")
  let d := spiWriteReg d (writeReg + setupAw) (UInt8.ofNat g.txAdrWidth - 2)
  let d := spiWriteBufSafe radio malloc d (writeReg + txAddr) g.txAddress (UInt8.ofNat g.txAdrWidth)
  let d := spiWriteReg d (writeReg + setupAw) (UInt8.ofNat g.rxAdrWidth - 2)
  let d := spiWriteBufSafe radio malloc d (writeReg + rxAddrP0) g.rxAddress (UInt8.ofNat g.rxAdrWidth)
  let d := spiWriteReg d (writeReg + enAa) (regConf conf "EN_AA")
  let d := spiWriteReg d (writeReg + enRxaddr) (regConf conf "EN_RXADDR")
  let d := spiWriteReg d (writeReg + setupRetr) (regConf conf "SETUP_RETR")
  let d := spiWriteReg d (writeReg + rfCh) station
  let d := spiWriteReg d (writeReg + rxPwP0) (regConf conf "RX_PLOAD_WIDTH")
  let d := spiWriteReg d (writeReg + rfSetup) (regConf conf "RF_SETUP")
  let d := flushRx d
  let d := spiWriteReg d (writeReg + config) (regConf conf "CONFIG")
  spiRead radio d config

-- `none` after so many rounds that read CONFIG back wrong.
def initRounds : Nat → Driver → Option Driver
  | 0, _ => none
  | fuel + 1, d =>
    let (value,d) := initBegin radio malloc d conf g station
    if (value.toNat : Int) ≠ nrfConf conf "CONFIG" then initRounds fuel d else some (ce d true)

def initNrf (fuel : Nat) : Option Driver := initRounds radio malloc conf g station fuel (ce d false)

def rxPacket (rxPloadWidth : UInt8) (rxBuf : Nat) : Bool × Driver :=
  let (sta,d) := spiRead radio (ce d false) status
  let d := if rxDr sta then spiReadBuf radio d rdRxPload rxBuf rxPloadWidth else d
  (rxDr sta,ce (spiWriteReg (spiWriteReg d Nrf.flushRx 0) (writeReg + status) sta) true)

inductive Act where
  | init (station : UInt8) (fuel : Nat)
  | rxPacket (rxBuf : Nat)
  deriving DecidableEq, Repr

def step (rxPloadWidth : UInt8) (d : Driver) : Act → Option Driver
  | .init station fuel => initNrf radio malloc d conf g station fuel
  | .rxPacket rxBuf => some (rxPacket radio d rxPloadWidth rxBuf).2

/-! What a call of the driver puts on the bus. `filler` is what stands in the buffer of a
payload before it is read: it is sent while the payload comes in. -/

def window (bytes : Bytes) : List Event := .csn false :: bytes.map .mosi ++ [.csn true]

def events (filler : Bytes) : Op → List Event
  | .ce state => [.ce state]
  | .spiWriteReg reg value => window [reg,value]
  | .spiRead reg => window [reg,0xCC]
  | .spiReadBuf reg _ => window (reg :: filler)
  | .spiWriteBuf reg buf bytes => window (reg :: buf.take bytes.toNat)
  | .flushRx => .csn false :: window [Nrf.flushRx,0] ++ [.csn true]

variable {radio malloc conf g station} {d e : Driver}

@[simp] theorem repliesLength (log : List Event) (sent : Bytes) :
    (replies radio log sent).length = sent.length := by
  induction sent generalizing log with
  | nil => rfl
  | cons b rest ih => rw [replies,List.length_cons,ih,List.length_cons]

structure Ran (g : Globals) (d e : Driver) (sent : List Event) : Prop where
  log : e.log = d.log ++ sent
  tx : slice e.mem g.txAddress g.txAdrWidth = slice d.mem g.txAddress g.txAdrWidth
  rx : slice e.mem g.rxAddress g.rxAdrWidth = slice d.mem g.rxAddress g.rxAdrWidth

theorem ranTrans {f : Driver} {first second : List Event} (h : Ran g d e first) (k : Ran g e f second) :
    Ran g d f (first ++ second) :=
  ⟨by rw [k.log,h.log,List.append_assoc],k.tx.trans h.tx,k.rx.trans h.rx⟩

theorem ranCe (state : Bool) : Ran g d (ce d state) (events [] (.ce state)) := ⟨rfl,rfl,rfl⟩

theorem ranReg (reg value : UInt8) :
    Ran g d (spiWriteReg d reg value) (events [] (.spiWriteReg reg value)) :=
  ⟨by simp [spiWriteReg,spiWriteByte,csn,events,window],rfl,rfl⟩

theorem ranRead (radio : Radio) (reg : UInt8) : Ran g d (spiRead radio d reg).2 (events [] (.spiRead reg)) :=
  ⟨by simp [spiRead,spiReadByte,spiWriteByte,csn,events,window],rfl,rfl⟩

theorem ranFlush : Ran g d (flushRx d) (events [] .flushRx) :=
  ⟨by simp [flushRx,spiWriteReg,spiWriteByte,csn,events,window],rfl,rfl⟩

theorem bufLog (reg : UInt8) (buf : Nat) (bytes : UInt8) : (spiBuf radio d reg buf bytes).log =
    d.log ++ window (reg :: slice d.mem buf bytes.toNat) := by
  simp [spiBuf,dataRW,spiWriteByte,csn,window]

theorem bufKeeps {start n : Nat} (reg : UInt8) (buf : Nat) (bytes : UInt8)
    (apart : Apart start n buf bytes.toNat) :
    slice (spiBuf radio d reg buf bytes).mem start n = slice d.mem start n :=
  Memory.sliceApart _ _ (by rw [repliesLength,Memory.sliceLength]; exact apart)

def Beside (g : Globals) (start n : Nat) : Prop :=
  Apart g.txAddress g.txAdrWidth start n ∧ Apart g.rxAddress g.rxAdrWidth start n

instance (g : Globals) (start n : Nat) : Decidable (Beside g start n) := inferInstanceAs (Decidable (_ ∧ _))

def Fresh (malloc : Malloc) (g : Globals) : Prop := ∀ d n, Beside g (malloc d n) n

theorem ranReadBuf (radio : Radio) (reg : UInt8) {buf : Nat} {bytes : UInt8}
    (beside : Beside g buf bytes.toNat) : Ran g d (spiReadBuf radio d reg buf bytes)
      (events (slice d.mem buf bytes.toNat) (.spiReadBuf reg bytes)) :=
  ⟨bufLog reg buf bytes,bufKeeps reg buf bytes beside.1,bufKeeps reg buf bytes beside.2⟩

theorem ranSafe (fresh : Fresh malloc g) (reg : UInt8) (buf : Nat) (bytes : UInt8) :
    Ran g d (spiWriteBufSafe radio malloc d reg buf bytes)
      (window (reg :: slice d.mem buf bytes.toNat)) := by
  have beside := fresh d bytes.toNat
  have length : (slice d.mem buf bytes.toNat).length = bytes.toNat := Memory.sliceLength ..
  constructor
  · have copied := Memory.sliceWrite d.mem (malloc d bytes.toNat) (slice d.mem buf bytes.toNat)
    rw [length] at copied
    rw [spiWriteBufSafe,spiWriteBuf,bufLog,copied]
  · refine (bufKeeps reg _ bytes beside.1).trans (Memory.sliceApart _ _ ?_)
    rw [length]
    exact beside.1
  · refine (bufKeeps reg _ bytes beside.2).trans (Memory.sliceApart _ _ ?_)
    rw [length]
    exact beside.2

structure Loaded (g : Globals) (adr : Addresses) (d : Driver) : Prop where
  tx : slice d.mem g.txAddress g.txAdrWidth = adr.tx
  rx : slice d.mem g.rxAddress g.rxAdrWidth = adr.rx

variable {adr : Addresses}

theorem ranLoaded {sent : List Event} (ran : Ran g d e sent) (loaded : Loaded g adr d) : Loaded g adr e :=
  ⟨ran.tx.trans loaded.tx,ran.rx.trans loaded.rx⟩

theorem ranAddress (radio : Radio) (fresh : Fresh malloc g) (reg : UInt8) {buf n : Nat} {cells : Bytes}
    (there : slice d.mem buf n = cells) :
    Ran g d (spiWriteBufSafe radio malloc d reg buf (UInt8.ofNat n))
      (events [] (.spiWriteBuf reg cells (width cells))) := by
  have length : cells.length = n := by rw [← there,Memory.sliceLength]
  have within : (UInt8.ofNat n).toNat ≤ n := by
    rw [UInt8.toNat_ofNat']
    exact Nat.mod_le _ _
  have sent : cells.take (width cells).toNat = slice d.mem buf (UInt8.ofNat n).toNat := by
    rw [width,length,← there,Memory.sliceTake _ _ within]
  rw [events,sent]
  exact ranSafe fresh reg buf _

theorem ranBegin (radio : Radio) (conf : Conf) (station : UInt8) (fresh : Fresh malloc g)
    (loaded : Loaded g adr d) : Ran g d (initBegin radio malloc d conf g station).2
      ((Nrf.initBegin adr conf station).flatMap (events [])) := by
  have masked := ranTrans (ranReg (g := g) (d := d) (writeReg + config) (regConf conf "CONFIG_intr_mask"))
    (ranTrans (ranReg (writeReg + status) (regConf conf "CONFIG_clear_intr"))
      (ranReg (writeReg + setupAw) (UInt8.ofNat g.txAdrWidth - 2)))
  have own := ranTrans masked (ranAddress radio fresh (writeReg + txAddr) (ranLoaded masked loaded).tx)
  have next := ranTrans own (ranReg (writeReg + setupAw) (UInt8.ofNat g.rxAdrWidth - 2))
  have both := ranTrans next (ranAddress radio fresh (writeReg + rxAddrP0) (ranLoaded next loaded).rx)
  have set := ranTrans both (ranTrans (ranReg (writeReg + enAa) (regConf conf "EN_AA"))
    (ranTrans (ranReg (writeReg + enRxaddr) (regConf conf "EN_RXADDR"))
    (ranTrans (ranReg (writeReg + setupRetr) (regConf conf "SETUP_RETR"))
    (ranTrans (ranReg (writeReg + rfCh) station)
    (ranTrans (ranReg (writeReg + rxPwP0) (regConf conf "RX_PLOAD_WIDTH"))
      (ranReg (writeReg + rfSetup) (regConf conf "RF_SETUP")))))))
  have all := ranTrans set (ranTrans ranFlush
    (ranTrans (ranReg (writeReg + config) (regConf conf "CONFIG")) (ranRead radio config)))
  have txWidth : width adr.tx = UInt8.ofNat g.txAdrWidth := by rw [width,← loaded.tx,Memory.sliceLength]
  have rxWidth : width adr.rx = UInt8.ofNat g.rxAdrWidth := by rw [width,← loaded.rx,Memory.sliceLength]
  simp only [Nrf.initBegin,List.flatMap_cons,List.flatMap_nil,List.append_nil,txWidth,rxWidth,
    List.append_assoc] at all ⊢
  exact all

theorem ranRounds (fresh : Fresh malloc g) {fuel : Nat} (loaded : Loaded g adr d)
    (h : initRounds radio malloc conf g station fuel d = some e) : ∃ again < fuel, Ran g d e
      (((List.replicate (again + 1) (Nrf.initBegin adr conf station)).flatten ++ [Op.ce true]).flatMap
        (events [])) := by
  induction fuel generalizing d with
  | zero => contradiction
  | succ fuel ih =>
    have round := ranBegin radio conf station fresh loaded
    simp only [initRounds] at h
    split at h
    · obtain ⟨again,less,ran⟩ := ih (ranLoaded round loaded) h
      refine ⟨again + 1,Nat.succ_lt_succ less,?_⟩
      rw [List.replicate_succ,List.flatten_cons,List.append_assoc,List.flatMap_append]
      exact ranTrans round ran
    · cases Option.some.inj h
      refine ⟨0,Nat.succ_pos fuel,?_⟩
      rw [List.flatMap_append]
      simpa using ranTrans round (ranCe true)

theorem ranInit (fresh : Fresh malloc g) {fuel : Nat} (loaded : Loaded g adr d)
    (h : initNrf radio malloc d conf g station fuel = some e) :
    ∃ again < fuel, Ran g d e ((Nrf.initNrf adr conf station again).flatMap (events [])) := by
  have start : Ran g d (ce d false) (events [] (.ce false)) := ranCe false
  obtain ⟨again,less,ran⟩ := ranRounds fresh (ranLoaded start loaded) h
  exact ⟨again,less,ranTrans start ran⟩

theorem ranPacket {rxPloadWidth : UInt8} {rxBuf : Nat} (beside : Beside g rxBuf rxPloadWidth.toNat) :
    ∃ sta, Ran g d (rxPacket radio d rxPloadWidth rxBuf).2
      ((rxStatus ++ Nrf.rxPacket rxPloadWidth sta).flatMap
        (events (slice d.mem rxBuf rxPloadWidth.toNat))) := by
  have begun := ranTrans (ranCe (g := g) (d := d) false) (ranRead radio status)
  have ended {f : Driver} (sta : UInt8) := ranTrans (ranReg (g := g) (d := f) Nrf.flushRx 0)
    (ranTrans (ranReg (writeReg + status) sta) (ranCe true))
  refine ⟨(spiRead radio (ce d false) status).1,?_⟩
  simp only [rxPacket,rxStatus,Nrf.rxPacket]
  split
  · have payload := ranTrans begun (ranReadBuf radio rdRxPload beside)
    have same : (spiRead radio (ce d false) status).2.mem = d.mem := rfl
    rw [same] at payload
    simpa [events] using ranTrans payload (ended _)
  · simpa [events] using ranTrans begun (ended _)

inductive Called (adr : Addresses) (conf : Conf) (rxPloadWidth : UInt8) : Act → List Op × Bytes → Prop where
  | init (station : UInt8) {fuel : Nat} {again : Nat} (within : again < fuel) :
      Called adr conf rxPloadWidth (.init station fuel) (Nrf.initNrf adr conf station again,[])
  | rxPacket (rxBuf : Nat) (sta : UInt8) (filler : Bytes) (whole : filler.length = rxPloadWidth.toNat) :
      Called adr conf rxPloadWidth (.rxPacket rxBuf) (rxStatus ++ Nrf.rxPacket rxPloadWidth sta,filler)

/-- Whatever the radio answers, the addresses stay as they were loaded, and the bus has seen the
transactions of the calls, with these addresses, in order. -/
theorem addressesKept (radio : Radio) (malloc : Malloc) (conf : Conf) (g : Globals) (adr : Addresses)
    (rxPloadWidth : UInt8) (fresh : Fresh malloc g) (d : Driver) (loaded : Loaded g adr d) (acts : List Act)
    (beside : ∀ rxBuf, .rxPacket rxBuf ∈ acts → Beside g rxBuf rxPloadWidth.toNat) (e : Driver)
    (run : Runs.exec (step radio malloc conf g rxPloadWidth) d acts = some e) :
    Loaded g adr e ∧ ∃ calls, List.Forall₂ (Called adr conf rxPloadWidth) acts calls ∧
      e.log = d.log ++ calls.flatMap (fun call => call.1.flatMap (events call.2)) := by
  induction acts generalizing d with
  | nil =>
    cases Option.some.inj run
    exact ⟨loaded,[],.nil,by simp⟩
  | cons a rest ih =>
    obtain ⟨m,moved,later⟩ := Runs.execCons run
    obtain ⟨call,called,ran⟩ : ∃ call, Called adr conf rxPloadWidth a call ∧
        Ran g d m (call.1.flatMap (events call.2)) := by
      cases a with
      | init station fuel =>
        obtain ⟨again,less,ran⟩ := ranInit fresh loaded moved
        exact ⟨_,.init station less,ran⟩
      | rxPacket rxBuf =>
        cases Option.some.inj moved
        obtain ⟨sta,ran⟩ := ranPacket (beside rxBuf List.mem_cons_self)
        exact ⟨_,.rxPacket rxBuf sta _ (Memory.sliceLength ..),ran⟩
    obtain ⟨kept,calls,all,log⟩ := ih m (ranLoaded ran loaded)
      (fun rxBuf mem => beside rxBuf (List.mem_cons_of_mem a mem)) later
    refine ⟨kept,call :: calls,.cons called all,?_⟩
    rw [log,ran.log,List.flatMap_cons,List.append_assoc]

def fiveFive : Globals := ⟨0,5,8,5⟩

def fiveFiveMem (i : Nat) : UInt8 := if i < 5 then 0xE7 else 0xC2

def answering (log : List Event) : UInt8 := if log.getLast? = some (.mosi 0xCC) then
  (if log.dropLast.getLast? = some (.mosi config) then 0x0F else 0x40) else 0x0E

theorem addressesKeptTwice : ∃ e,
    Runs.exec (step answering (fun _ _ => 64) [(ascii "nrf.CONFIG",ascii "0f")] fiveFive 2) ⟨fiveFiveMem,[]⟩
      [.init 40 1,.rxPacket 16,.init 41 1] = some e ∧
    Loaded fiveFive ⟨List.replicate 5 0xE7,List.replicate 5 0xC2⟩ e ∧ slice e.mem 16 2 = [0x0E,0x0E] := by
  have seen : (Runs.exec (step answering (fun _ _ => 64) [(ascii "nrf.CONFIG",ascii "0f")] fiveFive 2)
      ⟨fiveFiveMem,[]⟩ [.init 40 1,.rxPacket 16,.init 41 1]).map (fun e => slice e.mem 16 2) =
        some [0x0E,0x0E] := by decide +kernel
  obtain ⟨e,run,payload⟩ := Option.map_eq_some_iff.mp seen
  have beside (rxBuf : Nat) (mem : .rxPacket rxBuf ∈ [Act.init 40 1,.rxPacket 16,.init 41 1]) :
      Beside fiveFive rxBuf (2 : UInt8).toNat := by
    obtain rfl : rxBuf = 16 := by simpa using mem
    decide
  exact ⟨e,run,(addressesKept answering (fun _ _ => 64) _ fiveFive _ 2 (fun _ n => by
    simp [Beside,Apart,fiveFive]) ⟨fiveFiveMem,[]⟩ ⟨by decide,by decide⟩ _ beside e run).1,payload⟩

def Remembers (radio : Radio) : Prop := ∀ log value,
  radio (log ++ window [writeReg + config,value] ++ [.csn false,.mosi config,.mosi 0xCC]) = value

theorem beginReads (remembers : Remembers radio) (malloc : Malloc) (d : Driver) (conf : Conf) (g : Globals)
    (station : UInt8) : (initBegin radio malloc d conf g station).1 = regConf conf "CONFIG" := by
  have read (d : Driver) :
      (spiRead radio (spiWriteReg d (writeReg + config) (regConf conf "CONFIG")) config).1 =
        regConf conf "CONFIG" := by
    have answer := remembers d.log (regConf conf "CONFIG")
    simpa [spiRead,spiReadByte,spiWriteReg,spiWriteByte,csn,window] using answer
  exact read _

theorem byteReads (c : Int) : ((UInt8.ofInt c).toNat : Int) = c ↔ 0 ≤ c ∧ c ≤ 255 := by
  have value : ((UInt8.ofInt c).toNat : Int) = c % 256 := by
    rw [UInt8.ofInt,UInt8.toNat_ofNat',Nat.mod_eq_of_lt (by omega)]
    omega
  rw [value]
  omega

theorem initNever (outside : ¬ (0 ≤ nrfConf conf "CONFIG" ∧ nrfConf conf "CONFIG" ≤ 255)) (fuel : Nat)
    (d : Driver) : initRounds radio malloc conf g station fuel d = none := by
  induction fuel generalizing d with
  | zero => rfl
  | succ fuel ih =>
    simp only [initRounds]
    rw [if_pos,ih]
    intro same
    have byte := (initBegin radio malloc d conf g station).1.toNat_lt
    omega

/-- With a radio that remembers CONFIG, init_NRF24L01 returns, and after its first round, if and
only if the configured value is a byte; otherwise it goes round for ever. -/
theorem initReturns (radio : Radio) (remembers : Remembers radio) (malloc : Malloc) (d : Driver) (conf : Conf)
    (g : Globals) (station : UInt8) :
    ((∃ fuel, (initNrf radio malloc d conf g station fuel).isSome) ↔
      0 ≤ nrfConf conf "CONFIG" ∧ nrfConf conf "CONFIG" ≤ 255) ∧
    ((∃ fuel, (initNrf radio malloc d conf g station fuel).isSome) →
      (initNrf radio malloc d conf g station 1).isSome) := by
  have first (byte : 0 ≤ nrfConf conf "CONFIG" ∧ nrfConf conf "CONFIG" ≤ 255) :
      (initNrf radio malloc d conf g station 1).isSome := by
    simp only [initNrf,initRounds]
    rw [beginReads remembers,regConf,if_neg (not_not_intro ((byteReads _).mpr byte))]
    rfl
  have only : (∃ fuel, (initNrf radio malloc d conf g station fuel).isSome) →
      0 ≤ nrfConf conf "CONFIG" ∧ nrfConf conf "CONFIG" ≤ 255 := by
    rintro ⟨fuel,returns⟩
    by_contra outside
    rw [initNrf,initNever outside] at returns
    contradiction
  exact ⟨⟨only,fun byte => ⟨1,first byte⟩⟩,fun returns => first (only returns)⟩

def remembering (log : List Event) : UInt8 :=
  match log.reverse with
  | _ :: _ :: _ :: .csn true :: .mosi value :: _ => value
  | _ => 0x0E

theorem initReturnsByte :
    (initNrf remembering (fun _ _ => 64) ⟨fiveFiveMem,[]⟩ [(ascii "nrf.CONFIG",ascii "0f")]
      fiveFive 40 1).isSome ∧
    ¬ ∃ fuel, (initNrf remembering (fun _ _ => 64) ⟨fiveFiveMem,[]⟩ [(ascii "nrf.CONFIG",ascii "10f")]
      fiveFive 40 fuel).isSome := by
  have remembers : Remembers remembering := by
    intro log value
    simp [remembering,window]
  have returns (conf : Conf) := initReturns remembering remembers (fun _ _ => 64) ⟨fiveFiveMem,[]⟩ conf
    fiveFive 40
  exact ⟨(returns _).2 ((returns _).1.mpr (by decide)),
    fun forever => absurd ((returns _).1.mp forever) (by decide)⟩

/-! The transmitters. SPI_write_buf of send/nrf_simple.c sends byte by byte. -/

def flushTx : UInt8 := 0xE1
def wrTxPload : UInt8 := 0xA0
def wrTxPayloadNoack : UInt8 := 0xB0
def txPloadWidth : UInt8 := 9

def writeBytes (d : Driver) (pBuf : Nat) : Nat → Driver
  | 0 => d
  | n + 1 => writeBytes (spiWriteByte d (d.mem pBuf)) (pBuf + 1) n

def spiWriteBytes (d : Driver) (reg : UInt8) (pBuf : Nat) (bytes : UInt8) : Driver :=
  csn (writeBytes (spiWriteByte (csn d false) reg) pBuf bytes.toNat) true

theorem writeBytesSent (d : Driver) (pBuf n : Nat) : writeBytes d pBuf n =
    {d with log := d.log ++ (slice d.mem pBuf n).map .mosi} := by
  induction n generalizing d pBuf with
  | zero => simp [writeBytes,slice]
  | succ n ih =>
    have cons : slice d.mem pBuf (n + 1) = d.mem pBuf :: slice d.mem (pBuf + 1) n := by
      rw [Nat.add_comm,Memory.sliceAppend]
      rfl
    rw [writeBytes,ih,cons]
    simp [spiWriteByte]

/-- A buffer sent byte by byte and one given to wiringPiSPIDataRW are the same on the bus; the
first stays as it is, the second is replaced by what the radio answered, and nothing else is. -/
theorem bytewise (radio : Radio) (d : Driver) (reg : UInt8) (buf : Nat) (bytes : UInt8) :
    (spiWriteBytes d reg buf bytes).log = (spiWriteBuf radio d reg buf bytes).log ∧
    (spiWriteBytes d reg buf bytes).mem = d.mem ∧
    slice (spiWriteBuf radio d reg buf bytes).mem buf bytes.toNat =
      replies radio (d.log ++ [.csn false,.mosi reg]) (slice d.mem buf bytes.toNat) ∧
    ∀ start n, Apart start n buf bytes.toNat →
      slice (spiWriteBuf radio d reg buf bytes).mem start n = slice d.mem start n := by
  refine ⟨?_,?_,?_,fun start n apart => bufKeeps reg buf bytes apart⟩
  · rw [spiWriteBytes,writeBytesSent,spiWriteBuf,bufLog]
    simp [csn,spiWriteByte,window]
  · rw [spiWriteBytes,writeBytesSent]
    rfl
  · have back := Memory.sliceWrite d.mem buf
      (replies radio (d.log ++ [.csn false,.mosi reg]) (slice d.mem buf bytes.toNat))
    rw [repliesLength,Memory.sliceLength] at back
    simpa [spiWriteBuf,spiBuf,dataRW,csn,spiWriteByte] using back

def txPacket (radio : Radio) (d : Driver) (buf : Nat) : Driver :=
  let d := spiWriteReg (ce d false) (writeReg + status) 0x70
  ce (spiWriteBuf radio (spiWriteReg d flushTx 0) wrTxPload buf txPloadWidth) true

def txPacketSimple (d : Driver) (buf : Nat) : Driver :=
  ce (spiWriteBytes (ce d false) wrTxPayloadNoack buf txPloadWidth) true

structure Drawn where
  id : UInt16
  bit : Fin 6
  deriving DecidableEq, Repr

def Drawn.cells (p : Drawn) : Bytes := [(p.id >>> 8).toUInt8,p.id.toUInt8,0xc0,UInt8.ofNat (2 ^ p.bit.val)]

-- The loop of main; `tx` is the nRF24L01_TxPacket it is linked with.
def transmit (tx : Driver → Nat → Driver) (buf : Nat) (d : Driver) (packets : List Drawn) : Driver :=
  packets.foldl (fun d p => tx {d with mem := write d.mem (buf + 2) p.cells} buf) d

def payload (old : Bytes) (p : Drawn) : Bytes := old.take 2 ++ p.cells ++ old.drop 6

def txBegin : List Event := .ce false :: window [writeReg + status,0x70] ++ window [flushTx,0] ++
  [.csn false,.mosi wrTxPload]

def txEvents (cells : Bytes) : List Event := txBegin ++ cells.map .mosi ++ [.csn true,.ce true]

def txSimpleEvents (cells : Bytes) : List Event :=
  .ce false :: window (wrTxPayloadNoack :: cells) ++ [.ce true]

theorem filled (mem : Nat → UInt8) (buf : Nat) (p : Drawn) :
    slice (write mem (buf + 2) p.cells) buf txPloadWidth.toNat =
      payload (slice mem buf txPloadWidth.toNat) p :=
  Memory.sliceInside mem buf 2 p.cells (Nat.le_of_ble_eq_true rfl)

theorem txLog (radio : Radio) (d : Driver) (buf : Nat) : (txPacket radio d buf).log =
    d.log ++ txEvents (slice d.mem buf txPloadWidth.toNat) := by
  have same : (spiWriteReg (spiWriteReg (ce d false) (writeReg + status) 0x70) flushTx 0).mem = d.mem := rfl
  rw [txPacket,ce,spiWriteBuf,bufLog,same]
  simp [spiWriteReg,spiWriteByte,csn,ce,txEvents,txBegin,window]

theorem txSimple (d : Driver) (buf : Nat) : txPacketSimple d buf =
    {d with log := d.log ++ txSimpleEvents (slice d.mem buf txPloadWidth.toNat)} := by
  rw [txPacketSimple,spiWriteBytes,writeBytesSent]
  simp [spiWriteByte,csn,ce,txSimpleEvents,window]

theorem txBuffer (radio : Radio) (d : Driver) (buf : Nat) :
    slice (txPacket radio d buf).mem buf txPloadWidth.toNat =
      replies radio (d.log ++ txBegin) (slice d.mem buf txPloadWidth.toNat) := by
  have sent := (bytewise radio (spiWriteReg (spiWriteReg (ce d false) (writeReg + status) 0x70) flushTx 0)
    wrTxPload buf txPloadWidth).2.2.1
  have log : (spiWriteReg (spiWriteReg (ce d false) (writeReg + status) 0x70) flushTx 0).log ++
      [.csn false,.mosi wrTxPload] = d.log ++ txBegin := by
    simp [spiWriteReg,spiWriteByte,csn,ce,txBegin,window]
  rw [log] at sent
  exact sent

-- What `send` transmits: the rest of each payload is the answer to the payload before it.
def payloads (radio : Radio) : List Event → Bytes → List Drawn → List Bytes
  | _, _, [] => []
  | log, old, p :: rest =>
    let cells := payload old p
    cells :: payloads radio (log ++ txEvents cells) (replies radio (log ++ txBegin) cells) rest

def Carries (p : Drawn) (cells : Bytes) : Prop :=
  cells.length = txPloadWidth.toNat ∧ (cells.drop 2).take 4 = p.cells

theorem payloadCarries {old : Bytes} (width : old.length = txPloadWidth.toNat) (p : Drawn) :
    Carries p (payload old p) := by
  have nine : old.length = 9 := width
  have front : (old.take 2).length = 2 := by simp [nine]
  constructor
  · simp [payload,Drawn.cells,nine,txPloadWidth]
  · rw [payload,List.append_assoc,List.drop_left' front]
    rfl

theorem payloadAgain {old : Bytes} (width : old.length = txPloadWidth.toNat) (p q : Drawn) :
    payload (payload old p) q = payload old q := by
  have nine : old.length = 9 := width
  have front : (old.take 2).length = 2 := by simp [nine]
  have both : (old.take 2 ++ p.cells).length = 6 := by simp [Drawn.cells,nine]
  have head : (payload old p).take 2 = old.take 2 := by
    rw [payload,List.append_assoc,List.take_left' front]
  have tail : (payload old p).drop 6 = old.drop 6 := by rw [payload,List.drop_left' both]
  rw [payload,head,tail,payload]

theorem payloadsCarry (radio : Radio) (log : List Event) {old : Bytes} (width : old.length = txPloadWidth.toNat)
    (packets : List Drawn) : List.Forall₂ Carries packets (payloads radio log old packets) := by
  induction packets generalizing log old with
  | nil => exact .nil
  | cons p rest ih =>
    have carries := payloadCarries width p
    exact .cons carries (ih _ (by rw [repliesLength]; exact carries.1))

/-- However many packets are sent, and whatever the radio answers, each payload of either
transmitter has the drawn id and bit in its place. In simple-send the rest stays as main filled
it; in send it is what the radio answered to the payload before. -/
theorem transmitted (radio : Radio) (buf : Nat) (packets : List Drawn) (d : Driver) :
    (transmit (txPacket radio) buf d packets).log = d.log ++
      (payloads radio d.log (slice d.mem buf txPloadWidth.toNat) packets).flatMap txEvents ∧
    List.Forall₂ Carries packets (payloads radio d.log (slice d.mem buf txPloadWidth.toNat) packets) ∧
    (transmit txPacketSimple buf d packets).log = d.log ++
      packets.flatMap (fun p => txSimpleEvents (payload (slice d.mem buf txPloadWidth.toNat) p)) := by
  refine ⟨?_,payloadsCarry radio d.log (Memory.sliceLength ..) packets,?_⟩
  · induction packets generalizing d with
    | nil => simp [transmit,payloads]
    | cons p rest ih =>
      rw [transmit,List.foldl_cons]
      refine (ih _).trans ?_
      rw [txLog,txBuffer,filled,payloads,List.flatMap_cons,List.append_assoc]
  · induction packets generalizing d with
    | nil => simp [transmit]
    | cons p rest ih =>
      rw [transmit,List.foldl_cons]
      refine (ih _).trans ?_
      rw [txSimple]
      dsimp only
      simp only [filled,payloadAgain (Memory.sliceLength ..),List.flatMap_cons,List.append_assoc]

end RfidStation.Exchange
