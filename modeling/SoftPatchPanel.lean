import SoftPatchPanel.Lib.Align
import SoftPatchPanel.Lib.Aligned
import SoftPatchPanel.Lib.Claims
import SoftPatchPanel.Lib.Counter
import SoftPatchPanel.Lib.CStr
import SoftPatchPanel.Lib.Interleaving
import SoftPatchPanel.Lib.Loop
import SoftPatchPanel.Lib.Pieces
import SoftPatchPanel.Lib.Places
import SoftPatchPanel.Lib.Runs
import SoftPatchPanel.Lib.StableSort
import SoftPatchPanel.Lib.Strtoull
import SoftPatchPanel.Hostshmem.BuildConfig
import SoftPatchPanel.Hostshmem.Metadata
import SoftPatchPanel.Hostshmem.Layout
import SoftPatchPanel.Hostshmem.FirstPass
import SoftPatchPanel.Hostshmem.Collection
import SoftPatchPanel.Hostshmem.SecondPass
import SoftPatchPanel.Hostshmem.Offsets
import SoftPatchPanel.Hostshmem.Cache
import SoftPatchPanel.Hostshmem.Entries
import SoftPatchPanel.Hostshmem.DeviceOffsets
import SoftPatchPanel.Hostshmem.Hugefile
import SoftPatchPanel.Hostshmem.Consumer
import SoftPatchPanel.Hostshmem.HandOver
import SoftPatchPanel.Hostshmem.Shape
import SoftPatchPanel.Hostshmem.FailedCalls
import SoftPatchPanel.Hostshmem.Order
import SoftPatchPanel.Hostshmem.CacheRuns
import SoftPatchPanel.Hostshmem.HpBounds
import SoftPatchPanel.Hostshmem.ObjInit
import SoftPatchPanel.Hostshmem.Segments
import SoftPatchPanel.Hostshmem.Cmdline
import SoftPatchPanel.Hostshmem.Create
import SoftPatchPanel.Hostshmem.CmdlineBounds
import SoftPatchPanel.Hostshmem.Exported
import SoftPatchPanel.Qemu.Ivshmem
import SoftPatchPanel.Qemu.Requests
import SoftPatchPanel.Qemu.Window
import SoftPatchPanel.Ring.Calls
import SoftPatchPanel.Ring.Fifo
import SoftPatchPanel.Ring.Drain
import SoftPatchPanel.Ring.Alone
import SoftPatchPanel.Ring.Port
import SoftPatchPanel.Ring.Client
import SoftPatchPanel.Malloc.Elem
import SoftPatchPanel.Malloc.Heap
import SoftPatchPanel.Malloc.Chunks
import SoftPatchPanel.Malloc.Invariant
import SoftPatchPanel.Malloc.Alloc
import SoftPatchPanel.Malloc.Free
import SoftPatchPanel.Malloc.Search
import SoftPatchPanel.Malloc.Setup
import SoftPatchPanel.Malloc.Blocks
import SoftPatchPanel.Mempool.Calls
import SoftPatchPanel.Mempool.Invariant
import SoftPatchPanel.Mempool.Balance
import SoftPatchPanel.EthDev
import SoftPatchPanel.Secondary.Commands
import SoftPatchPanel.Secondary.Forward
import SoftPatchPanel.Secondary.Wiring
import SoftPatchPanel.Secondary.Script
import SoftPatchPanel.Secondary.Bounds
import SoftPatchPanel.Secondary.StoreOrder
import SoftPatchPanel.Secondary.Pollers
import SoftPatchPanel.Secondary.Names
import SoftPatchPanel.Secondary.Status
import SoftPatchPanel.Secondary.Dispatch
import SoftPatchPanel.Secondary.Reconnect
import SoftPatchPanel.Nfv.DoubleBuffer
import SoftPatchPanel.Pktmbuf
import SoftPatchPanel.Memcpy.Forward
import SoftPatchPanel.Memcpy.Places
import SoftPatchPanel.Memcpy.Drain
import SoftPatchPanel.Memcpy.Fidelity
import SoftPatchPanel.Memcpy.Chains
import SoftPatchPanel.Lvl3.Forward
import SoftPatchPanel.Lvl1.Ports
import SoftPatchPanel.Lvl1.Clients
import SoftPatchPanel.L2fwd.Pairing
import SoftPatchPanel.L2fwd.Lcores
import SoftPatchPanel.L2fwd.Loop
import SoftPatchPanel.Vhost.Pmd
import SoftPatchPanel.Vhost.Handshake
import SoftPatchPanel.Vhost.Callbacks
import SoftPatchPanel.PatchPanel.Console
import SoftPatchPanel.Spp.Controller
import SoftPatchPanel.Spp.Routing
import SoftPatchPanel.Spp.Replies
import SoftPatchPanel.Spp.Network
import SoftPatchPanel.Spp.Exchange
import SoftPatchPanel.Spp.Session
import SoftPatchPanel.Ovsdb.GatherReply
