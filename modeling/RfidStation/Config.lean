import RfidStation.Lib.Cstr

/-! The configuration list of config.c: newest assignment first. -/
namespace RfidStation.Config
open Cstr

abbrev Conf := List (Bytes × Bytes)

-- A missing key reads as the empty string ("in case atoi() is wrapped").
def getConfig : Conf → Bytes → Bytes
  | [], _ => []
  | (k,v) :: rest, key => if k = key then v else getConfig rest key

def addConfig (conf : Conf) (key value : Bytes) : Conf := (key,value) :: conf

def getInt (conf : Conf) (key : String) : Int := atoi (getConfig conf (ascii key))

end RfidStation.Config
