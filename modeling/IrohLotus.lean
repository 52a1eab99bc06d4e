import IrohLotus.Lib.Outcome
import IrohLotus.Lib.Program
import IrohLotus.Wire.Envelope
import IrohLotus.Wire.Addr
import IrohLotus.Wire.RoundTrip
import IrohLotus.Wire.Sample
import IrohLotus.Wire.Founded
import IrohLotus.Wire.PathParse
import IrohLotus.Storage.Mem
import IrohLotus.Storage.Refinement
import IrohLotus.State.Error
import IrohLotus.State.Ledger
import IrohLotus.State.Atomic
import IrohLotus.State.Chain
import IrohLotus.State.Change
import IrohLotus.Storage.Log
import IrohLotus.State.World
import IrohLotus.State.Equivalence
import IrohLotus.State.Crash
import IrohLotus.State.Cover
import IrohLotus.State.Meeting
import IrohLotus.State.Failure
import IrohLotus.State.Cut
import IrohLotus.State.Verified
import IrohLotus.State.Planted
import IrohLotus.State.Intended
import IrohLotus.State.Batch
import IrohLotus.Sync.Puller
import IrohLotus.Sync.Server
import IrohLotus.Sync.Locator
import IrohLotus.Lotusd.Watch
import IrohLotus.Lotusd.Orphaned
import IrohLotus.Lotusd.PeerEgress
import IrohLotus.Lotusd.Invites
import IrohLotus.Lotusd.Admit
import IrohLotus.Lotusd.Partway
import IrohLotus.Lotusd.Oldest
import IrohLotus.Lotusd.Listing
import IrohLotus.Lotusd.Advertise
import IrohLotus.Lotusd.Alone
import IrohLotus.Lotusd.Locate
import IrohLotus.Lotusctl.Where
import IrohLotus.State.Gathering
import IrohLotus.Sync.Split
import IrohLotus.Sync.Frame
import IrohLotus.LotusdRpc.Frame
import IrohLotus.Render.Value
import IrohLotus.Lotusd.Invite
import IrohLotus.Lib.Uri
import IrohLotus.Lotusweb.Location
import IrohLotus.State.Increment
import IrohLotus.Lotusd.Segment
import IrohLotus.Lib.Interleave
import IrohLotus.Lotusd.WeakWrite
import IrohLotus.Lotusweb.Rename
import IrohLotus.Lib.ForkOrder
import IrohLotus.Lib.Coalesce
import IrohLotus.Lib.Descent
import IrohLotus.Lib.Reread
import IrohLotus.Lotusd.PeerLink
import IrohLotus.Lotusd.Greatest
import IrohLotus.Lotusd.Cluster
import IrohLotus.Lotusd.Rest
import IrohLotus.Lotusd.Owed
import IrohLotus.Lotusd.Egress
import IrohLotus.Lotusd.AddrPublish
import IrohLotus.Lotusd.Serve
import IrohLotus.Lotusd.Bootstrap
import IrohLotus.Lotusd.Join
import IrohLotus.Lotusd.JoinRest
import IrohLotus.Lotusd.Window
import IrohLotus.Lotusd.Retention
