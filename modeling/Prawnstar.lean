import Prawnstar.Library.Runs
import Prawnstar.Library.Bookkeeping
import Prawnstar.Library.Table
import Prawnstar.Library.Custody
import Prawnstar.Library.Replicas
import Prawnstar.Library.Lottery
import Prawnstar.Library.Enrolment
import Prawnstar.Library.Residues
import Prawnstar.Library.Numerals
import Prawnstar.Library.Renderings
import Prawnstar.Library.Loops
import Prawnstar.Library.Utf8
import Prawnstar.Library.Decimals
import Prawnstar.Library.Gossip
import Prawnstar.Library.Tails
import Prawnstar.Json
import Prawnstar.Platform
import Prawnstar.Records
import Prawnstar.AccountModel
import Prawnstar.ProofOfStake
import Prawnstar.Node
import Prawnstar.Handlers
import Prawnstar.CallSpecs
import Prawnstar.Execution
import Prawnstar.Forging
import Prawnstar.Start
import Prawnstar.Reference
import Prawnstar.Linkage
import Prawnstar.ExactlyOnce
import Prawnstar.Authentication
import Prawnstar.Provenance
import Prawnstar.Spending
import Prawnstar.Conservation
import Prawnstar.BlockAdmission
import Prawnstar.Threads
import Prawnstar.Interleaving
import Prawnstar.Wire
import Prawnstar.Import
import Prawnstar.Clog
import Prawnstar.Replay
import Prawnstar.Network
import Prawnstar.Agreement
import Prawnstar.Overtaking
import Prawnstar.Sealing
import Prawnstar.Charging
import Prawnstar.Requests
import Prawnstar.CatchUp
import Prawnstar.Booking
import Prawnstar.ImportLinkage
import Prawnstar.Redelivery
import Prawnstar.HonestBlocks
import Prawnstar.Following
import Prawnstar.DeliveryOrder
import Prawnstar.Batches
import Prawnstar.Lottery
import Prawnstar.Elections
import Prawnstar.Verdicts
import Prawnstar.Relays
import Prawnstar.KeyRegistry
import Prawnstar.Peers
import Prawnstar.Fields
import Prawnstar.Dispatch
import Prawnstar.Draws
import Prawnstar.ForgingNode
import Prawnstar.ImportEffects
import Prawnstar.Rejections
import Prawnstar.Serving
import Prawnstar.Framing
import Prawnstar.Digests
import Prawnstar.Serializer
import Prawnstar.Lexer
import Prawnstar.Parser
import Prawnstar.Lexemes
import Prawnstar.Numbers
import Prawnstar.JsonTexts
import Prawnstar.Accepted
import Prawnstar.PlainTexts
import Prawnstar.Transport
import Prawnstar.Processes
import Prawnstar.Discovery
import Prawnstar.Draining
import Prawnstar.Origins
import Prawnstar.Downloads
import Prawnstar.Life
import Prawnstar.Lasting
import Prawnstar.Api
import Prawnstar.ConsoleLog
import Prawnstar.Latecomers
import Prawnstar.TimelyAnswers
