import Nrappkit.Assoc.Theorems
import Nrappkit.Registry.CallbackTheorems
import Nrappkit.Registry.Local
import Nrappkit.Registry.LocalInvariants
import Nrappkit.Registry.LocalOps
import Nrappkit.Registry.LocalTheorems
import Nrappkit.Registry.LocalProgress
import Nrappkit.Registry.LocalReads
import Nrappkit.Registry.LocalEvents
import Nrappkit.Registry.Announce
import Nrappkit.Registry.FailedSets
import Nrappkit.Registry.Relay
import Nrappkit.Registry.Remote
import Nrappkit.Event.Async
import Nrappkit.Event.TimerSpec
import Nrappkit.Event.Machine
import Nrappkit.Event.TimerTheorems
import Nrappkit.Event.Epoll
import Nrappkit.Event.Builds
import Nrappkit.Stats.Theorems
import Nrappkit.Stats.Names
import Nrappkit.Lib.Numeral
import Nrappkit.Registry.Children
import Nrappkit.Registry.Entries
import Nrappkit.Control.Nrregctl
import Nrappkit.Control.Values
import Nrappkit.Control.Quoting
import Nrappkit.Control.Export
import Nrappkit.Control.Import
import Nrappkit.Control.Theorems
import Nrappkit.Log.Levels
import Nrappkit.Log.Reading
import Nrappkit.Log.Destinations
import Nrappkit.Log.Facilities
import Nrappkit.Log.Coherence
import Nrappkit.Log.Theorems
import Nrappkit.Log.Startup
import Nrappkit.Log.Decision
import Nrappkit.Log.Registration
import Nrappkit.Registry.Deletion
import Nrappkit.Registry.ChildCount
import Nrappkit.Lib.Buffer
import Nrappkit.Registry.Arrays
import Nrappkit.Registry.ChildIndex
import Nrappkit.Registry.ListServer
import Nrappkit.Registry.CallbackMasks
import Nrappkit.Registry.MakeRegistry
import Nrappkit.Registry.Generations
import Nrappkit.Util.RList
import Nrappkit.Util.RListCopy
import Nrappkit.Util.Bitfield
import Nrappkit.Util.ParsedCerts
import Nrappkit.Lib.Hex
import Nrappkit.Util.Hex
import Nrappkit.Util.PBuf
import Nrappkit.Assoc.Sweep
import Nrappkit.Lib.Ledger
import Nrappkit.Lib.Stailq
import Nrappkit.Util.Chains
import Nrappkit.Assoc.Ownership
import Nrappkit.Event.Sockets
import Nrappkit.Event.TimedWheel
import Nrappkit.Event.NextTimeout
import Nrappkit.Event.FireOrder
import Nrappkit.Lib.Frame
import Nrappkit.Assoc.Beside
import Nrappkit.Assoc.Copy
import Nrappkit.Assoc.CopySpec
import Nrappkit.Assoc.World
import Nrappkit.Assoc.CopyTheorems
import Nrappkit.Assoc.Count
import Nrappkit.Lib.Totals
import Nrappkit.Util.Memory
import Nrappkit.Event.Offsets
import Nrappkit.Lib.Hierarchy
import Nrappkit.Service.Store
import Nrappkit.Lib.Broadcast
import Nrappkit.Service.Daemon
import Nrappkit.Lib.Xdr
import Nrappkit.Lib.Rpc
import Nrappkit.Service.Wire
import Nrappkit.Service.Link
import Nrappkit.Service.Remote
import Nrappkit.Service.Requests
import Nrappkit.Registry.Members
import Nrappkit.Service.Structs
import Nrappkit.Plugin.Startup
import Nrappkit.Web.Handler
import Nrappkit.Web.Bodies
import Nrappkit.Web.Pages
import Nrappkit.Web.Theorems
import Nrappkit.Web.LastPut
import Nrappkit.Lib.Catalog
import Nrappkit.Stats.Processes
import Nrappkit.Stats.Board
import Nrappkit.Stats.Sharing
import Nrappkit.Stats.Segments
