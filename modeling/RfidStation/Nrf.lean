import RfidStation.Hex
import RfidStation.Receiver

/-! The receiver's driver of the nRF24L01 (receive/nrf.c): the register and payload
transactions that init_NRF24L01 and nRF24L01_RxPacket make, in order. -/
namespace RfidStation.Nrf
open Cstr Config Receiver

def writeReg : UInt8 := 0x20
def rdRxPload : UInt8 := 0x61
def flushRx : UInt8 := 0xE2
def config : UInt8 := 0x00
def enAa : UInt8 := 0x01
def enRxaddr : UInt8 := 0x02
def setupAw : UInt8 := 0x03
def setupRetr : UInt8 := 0x04
def rfCh : UInt8 := 0x05
def rfSetup : UInt8 := 0x06
def status : UInt8 := 0x07
def rxAddrP0 : UInt8 := 0x0A
def txAddr : UInt8 := 0x10
def rxPwP0 : UInt8 := 0x11

/- One call that works on the radio: the CE pin, or a transaction on the bus. -/
inductive Op where
  | ce (state : Bool)
  | spiWriteReg (reg value : UInt8)
  | spiRead (reg : UInt8)
  | spiReadBuf (reg bytes : UInt8)
  | spiWriteBuf (reg : UInt8) (buf : Bytes) (bytes : UInt8)
  | flushRx
  deriving DecidableEq, Repr

def hexPairs : Bytes → Bytes
  | hi :: lo :: rest => UInt8.ofInt (16 * Hex.hex2int hi + Hex.hex2int lo) :: hexPairs rest
  | _ => []

-- load_hex_config: anything but 0x and pairs of digits leaves no bytes.
def loadHexConfig (conf : Conf) (name : String) : Bytes :=
  match getConfig conf (ascii name) with
  | 48 :: x :: str => if (x = 120 ∨ x = 88) ∧ str.length % 2 = 0 then hexPairs str else []
  | _ => []

structure Addresses where
  tx : Bytes
  rx : Bytes
  deriving DecidableEq, Repr

def loadGlobalConfigs (conf : Conf) : Addresses :=
  ⟨loadHexConfig conf "nrf.TX_ADDRESS",loadHexConfig conf "nrf.RX_ADDRESS"⟩

def regConf (conf : Conf) (name : String) : UInt8 := UInt8.ofInt (nrfConf conf name)

def width (bytes : Bytes) : UInt8 := UInt8.ofNat bytes.length

-- init_NRF24L01 from `begin` to the reading of CONFIG.
def initBegin (adr : Addresses) (conf : Conf) (station : UInt8) : List Op := [
  .spiWriteReg (writeReg + config) (regConf conf "CONFIG_intr_mask"),
  .spiWriteReg (writeReg + status) (regConf conf "CONFIG_clear_intr"),
  .spiWriteReg (writeReg + setupAw) (width adr.tx - 2),
  .spiWriteBuf (writeReg + txAddr) adr.tx (width adr.tx),
  .spiWriteReg (writeReg + setupAw) (width adr.rx - 2),
  .spiWriteBuf (writeReg + rxAddrP0) adr.rx (width adr.rx),
  .spiWriteReg (writeReg + enAa) (regConf conf "EN_AA"),
  .spiWriteReg (writeReg + enRxaddr) (regConf conf "EN_RXADDR"),
  .spiWriteReg (writeReg + setupRetr) (regConf conf "SETUP_RETR"),
  .spiWriteReg (writeReg + rfCh) station,
  .spiWriteReg (writeReg + rxPwP0) (regConf conf "RX_PLOAD_WIDTH"),
  .spiWriteReg (writeReg + rfSetup) (regConf conf "RF_SETUP"),
  .flushRx,
  .spiWriteReg (writeReg + config) (regConf conf "CONFIG"),
  .spiRead config]

-- `again` is how often CONFIG is read back wrong and init_NRF24L01 goes to `begin`.
def initNrf (adr : Addresses) (conf : Conf) (station : UInt8) (again : Nat) : List Op :=
  .ce false :: (List.replicate (again + 1) (initBegin adr conf station)).flatten ++ [.ce true]

def rxDr (sta : UInt8) : Bool := sta &&& 0x40 ≠ 0

/- nRF24L01_RxPacket up to the reading of STATUS, and from there. -/

def rxStatus : List Op := [.ce false,.spiRead status]

def rxPacket (bytes sta : UInt8) : List Op :=
  (if rxDr sta then [.spiReadBuf rdRxPload bytes] else []) ++
    [.spiWriteReg flushRx 0,.spiWriteReg (writeReg + status) sta,.ce true]

end RfidStation.Nrf
