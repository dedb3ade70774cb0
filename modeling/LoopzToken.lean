import LoopzToken.Lib.Machine
import LoopzToken.Lib.Path
import LoopzToken.Lib.Simulation
import LoopzToken.Lib.Family
import LoopzToken.Lib.Json
import LoopzToken.Lib.JsonParse
import LoopzToken.Lib.GoJson
import LoopzToken.Lib.Zod
import LoopzToken.Lib.Bytes
import LoopzToken.Lib.TextDecoder
import LoopzToken.Lib.TextEncoder
import LoopzToken.Lib.Hex
import LoopzToken.Lib.Percent
import LoopzToken.Lib.Url
import LoopzToken.Lib.ServeMux
import LoopzToken.Lib.Redirect
import LoopzToken.Lib.Leftmost
import LoopzToken.Lib.Split
import LoopzToken.Lib.Sorted
import LoopzToken.Lib.Response
import LoopzToken.Lib.Journal
import LoopzToken.Lib.Reader
import LoopzToken.Lib.BigInt
import LoopzToken.Lib.JsObject
import LoopzToken.Lib.JsonWrite
import LoopzToken.Lib.Runes
import LoopzToken.Lib.GoMarshal
import LoopzToken.Lib.GoRecord
import LoopzToken.Worker.Outbox
import LoopzToken.Worker.Claim
import LoopzToken.Worker.Main
import LoopzToken.Worker.Ownership
import LoopzToken.Worker.Row
import LoopzToken.Worker.Exclusive
import LoopzToken.Worker.NoLoss
import LoopzToken.Worker.Handled
import LoopzToken.Worker.Retry
import LoopzToken.Worker.Terminal
import LoopzToken.Worker.Attempts
import LoopzToken.Worker.Order
import LoopzToken.Worker.Handlers
import LoopzToken.Worker.Termination
import LoopzToken.Worker.Diamond
import LoopzToken.Worker.Automaton
import LoopzToken.Worker.Stranded
import LoopzToken.Worker.Budget
import LoopzToken.Worker.Recovery
import LoopzToken.Worker.Overtaking
import LoopzToken.Worker.Quiet
import LoopzToken.Worker.Liveness
import LoopzToken.Worker.Fate
import LoopzToken.Gateway.ApiKey
import LoopzToken.Gateway.Router
import LoopzToken.Gateway.StatusWriter
import LoopzToken.Gateway.Server
import LoopzToken.Billing.Routes
import LoopzToken.Billing.Contract
import LoopzToken.Billing.Answer
import LoopzToken.Billing.Server
import LoopzToken.Billing.Wire
import LoopzToken.Billing.Redirect
import LoopzToken.Payment.Mock
import LoopzToken.Payment.Paid
import LoopzToken.Payment.Notification
import LoopzToken.Payment.Loop
import LoopzToken.Payment.Log
import LoopzToken.Web.Utils
