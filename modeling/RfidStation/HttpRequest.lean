import RfidStation.CloudSend
import RfidStation.Lib.Lines
import RfidStation.Hex

/-! http_post (http.c) from its first call to its return, and cloud_send (common.c) around it.
Every call that fails before the receive loop goes to `out`. -/
namespace RfidStation.HttpRequest
open Cstr Config HttpPost NotifyQueue CloudSend Hex

def maxHeadersLength : Nat := 300

-- `%d` of an unsigned int.
def printInt (n : Nat) : Bytes := ascii (toString (BitVec.ofNat 32 n).toInt)

def requestText (conf : Conf) (host path body : Bytes) (len : Nat) : Bytes :=
  ascii "POST " ++ path ++ ascii " HTTP/1.1\r\nHost: " ++ host ++ ascii "\r\nUser-Agent: " ++
    getConfig conf (ascii "http.user_agent") ++
    ascii "\r\nConnection: close\r\nContent-Length: " ++ printInt len ++
    ascii "\r\nContent-Type: application/x-www-form-urlencoded\r\n\r\n" ++ body

-- snprintf keeps a byte for the NUL.
def snprintf (size : Nat) (text : Bytes) : Bytes := text.take (size - 1)

/- The outcomes of the calls: `false` and `none` are -1 (a null pointer for the name lookup). -/
structure Calls where
  startTime : UInt32
  socket : Bool
  recvTimeout : Bool
  sendTimeout : Bool
  lookup : Bool
  connect : Bool
  sent : Option Nat
  events : List Event
  deriving DecidableEq, Repr

def connected (calls : Calls) : Bool :=
  calls.socket && calls.recvTimeout && calls.sendTimeout && calls.lookup && calls.connect

def sentAll (text : Bytes) (calls : Calls) : Bool := match calls.sent with
  | none => false
  | some sendedlen => !decide (sendedlen < text.length)

def request (calls : Calls) (tcp : Bytes) : Request :=
  if connected calls && sentAll tcp calls then .answered calls.events else .unsent

def httpPost (conf : Conf) (host path body : Bytes) (len : Nat) (calls : Calls) : Option Outcome :=
  let tcp := snprintf (len + maxHeadersLength) (requestText conf host path body len)
  match request calls tcp with
  | .unsent => some (.returned 0 none .failed)
  | .answered events => receive conf calls.startTime start events

def unreserved (c : UInt8) : Bool :=
  (97 ≤ c && c ≤ 122) || (65 ≤ c && c ≤ 90) || (48 ≤ c && c ≤ 57) || c == 46 || c == 45 || c == 42 ||
    c == 95

def urlencode (msg : Bytes) : Bytes :=
  msg.flatMap (fun c => if unreserved c then [c] else 37 :: hexByte c)

def cloudBody (conf : Conf) (buf : Bytes) : Bytes :=
  let encoded := urlencode buf
  snprintf (encoded.length + maxHeadersLength)
    (ascii "token=" ++ getConfig conf (ascii "cloud.access_token") ++ ascii "&data=" ++ encoded)

def cloudRequest (conf : Conf) (path buf : Bytes) : Bytes :=
  let body := cloudBody conf buf
  requestText conf (getConfig conf (ascii "cloud.remote_host")) path body body.length

def cloudSendCalls (conf : Conf) (path buf : Bytes) (calls : Calls) : Option Reply :=
  let body := cloudBody conf buf
  match httpPost conf (getConfig conf (ascii "cloud.remote_host")) path body body.length calls with
  | some (.returned totalbytes recvbuf _) => some (copyReply totalbytes recvbuf)
  | _ => none

theorem cloudSendRequest (conf : Conf) (path buf : Bytes) (calls : Calls) :
    cloudSendCalls conf path buf calls = cloudSend conf calls.startTime (request calls
      (snprintf ((cloudBody conf buf).length + maxHeadersLength) (cloudRequest conf path buf))) := by
  rw [cloudSendCalls,httpPost,cloudRequest]
  generalize request calls _ = sent
  cases sent with
  | unsent => rfl
  | answered events => rfl

end RfidStation.HttpRequest
