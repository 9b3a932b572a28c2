import Gnostr.Wire.Bytes
import Gnostr.Wire.Text
import Gnostr.Wire.Delimited
import Gnostr.Wire.Json
import Gnostr.Wire.JsonDecode
import Gnostr.Wire.JsonRender
import Gnostr.Wire.JsonLib
import Gnostr.Codec.Cursor
import Gnostr.Codec.Hex
import Gnostr.Event.Commitment
import Gnostr.Event.Unambiguous
import Gnostr.Event.Keys
import Gnostr.Event.Generate
import Gnostr.Event.Print
import Gnostr.Relay.Event
import Gnostr.Relay.Database
import Gnostr.Relay.Request
import Gnostr.Relay.Server
import Gnostr.Relay.MakeEvent
import Gnostr.Codec.Base64
import Gnostr.Wire.BlockMode
import Gnostr.Cli.Dm
import Gnostr.Cli.Args
import Gnostr.Cli.Grammar
import Gnostr.Cli.Main
import Gnostr.Relay.Http
import Gnostr.Relay.Answers
import Gnostr.Relay.HttpRelay
import Gnostr.Cli.Options
import Gnostr.Cli.Message
import Gnostr.Swarm.Events
import Gnostr.Wire.Action
import Gnostr.Swarm.Store
import Gnostr.Swarm.Relay
import Gnostr.Cli.Limits
import Gnostr.Cli.Status
import Gnostr.Swarm.Handling
import Gnostr.Swarm.Subscriptions
import Gnostr.Swarm.Frames
import Gnostr.Swarm.Sync
import Gnostr.Relay.HttpLength
import Gnostr.Swarm.Filters
import Gnostr.Swarm.Queries
import Gnostr.Swarm.QueryEvents
import Gnostr.Swarm.Deliveries
import Gnostr.Swarm.Completion
import Gnostr.Swarm.Messages
import Gnostr.Wire.Octets
import Gnostr.Wire.Digest
import Gnostr.Wire.Gf256
import Gnostr.Codec.Endian
import Gnostr.Crypto.Sha256
import Gnostr.Crypto.Sha256Standard
import Gnostr.Crypto.Sha256Stream
import Gnostr.Crypto.Aes
import Gnostr.Crypto.AesStandard
import Gnostr.Crypto.AesModes
import Gnostr.Event.Digest
import Gnostr.Wire.Tape
import Gnostr.Wire.Simulation
import Gnostr.Codec.CursorOps
import Gnostr.Codec.CursorItems
import Gnostr.Codec.Arena
import Gnostr.Swarm.Discovery
import Gnostr.Wire.JsonSound
import Gnostr.Relay.Printed
import Gnostr.Relay.Client
import Gnostr.Relay.Selection
