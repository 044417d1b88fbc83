import RfidStation.Lib.Runs
import RfidStation.Lib.Cstr
import RfidStation.Lib.Window
import RfidStation.Config
import RfidStation.Dict
import RfidStation.Student
import RfidStation.Hex
import RfidStation.Merger
import RfidStation.Sessions
import RfidStation.TestReceiver
import RfidStation.TimerRace
import RfidStation.NotifyQueue
import RfidStation.Lib.Blocks
import RfidStation.Records
import RfidStation.Conservation
import RfidStation.Lib.Keyed
import RfidStation.Exchange
import RfidStation.Framing
import RfidStation.DeliveryOrder
import RfidStation.SendQueue
import RfidStation.MsgLoop
import RfidStation.Delivery
import RfidStation.Receiver
import RfidStation.Lib.Search
import RfidStation.HttpPost
import RfidStation.Segments
import RfidStation.CloudSend
import RfidStation.SendBuffers
import RfidStation.Timers
import RfidStation.DequeueRange
import RfidStation.Reassembly
import RfidStation.Nrf
import RfidStation.ChannelTag
import RfidStation.Lib.ChipSelect
import RfidStation.SpiBus
import RfidStation.Lib.Lines
import RfidStation.ConfigFile
import RfidStation.Settings
import RfidStation.LineLocal
import RfidStation.Reload
import RfidStation.Rest
import RfidStation.HttpRequest
import RfidStation.ReturnValue
import RfidStation.Acknowledgement
import RfidStation.Lib.Percent
import RfidStation.UrlEncode
import RfidStation.Requests
import RfidStation.Lib.Maximal
import RfidStation.ChannelList
import RfidStation.ChannelSwitch
import RfidStation.HexAddress
import RfidStation.Lib.Linked
import RfidStation.DictHeap
import RfidStation.DictRuns
import RfidStation.Reported
import RfidStation.SerialPort
import RfidStation.ParserBounds
import RfidStation.QueueGrowth
import RfidStation.Lib.Parts
import RfidStation.Station
import RfidStation.Lib.Locks
import RfidStation.Lib.Memory
import RfidStation.LockedQueue
import RfidStation.Lib.History
import RfidStation.Waiting
import RfidStation.Watchdog
import RfidStation.Drain
import RfidStation.Lib.Message
import RfidStation.Lib.Form
import RfidStation.Upload
import RfidStation.Lookups
import RfidStation.Direction
import RfidStation.Lib.Throttle
import RfidStation.Intervals
import RfidStation.Restarts
