import Dca.Lib.CString
import Dca.Lib.Result
import Dca.Lib.Components
import Dca.Lib.Keyed
import Dca.Lib.Fuel
import Dca.Lib.Forest
import Dca.Lib.Iterator
import Dca.Lib.Chunks
import Dca.Lib.Heap
import Dca.Lib.Run
import Dca.Lib.Sweep
import Dca.Db.Types
import Dca.Db.Ps
import Dca.Db.Saul
import Dca.Db.Netif
import Dca.Db.Fl
import Dca.Db.Getters
import Dca.Db.Node
import Dca.Db.Index
import Dca.Db.Session
import Dca.Db.Path
import Dca.Db.Names
import Dca.Db.Static
import Dca.Db.Report
import Dca.Db.Steps
import Dca.Db.FieldNames
import Dca.Db.History
import Dca.Db.ExactNames
import Dca.Db.Held
import Dca.Db.Calls
import Dca.Db.Lookup
import Dca.Db.Next
import Dca.Db.Children
import Dca.Db.NodeName
import Dca.Db.Text
import Dca.Db.Query
import Dca.Db.Labels
import Dca.Db.Position
import Dca.Db.Walk
import Dca.Db.Tour
import Dca.Db.Seek
import Dca.Db.Dump
import Dca.Db.Shown
import Dca.Db.Found
import Dca.Db.Ways
import Dca.Db.NextPid
import Dca.Db.Enumeration
import Dca.Db.Devices
import Dca.Db.Siblings
import Dca.Db.Summary
import Dca.Db.Decimal
import Dca.Db.Fields
import Dca.Db.Ifaces
import Dca.Db.Fs
import Dca.Db.Files
import Dca.Db.FileSize
import Dca.Db.Coap
import Dca.Db.Listing
import Dca.Db.Requests
import Dca.Neighbour.LinkedList
import Dca.Neighbour.Store
import Dca.Latency.Ping
import Dca.Latency.Measure
import Dca.Latency.Steps
import Dca.Latency.Loss
import Dca.Latency.Timers
import Dca.Latency.Neighbours
import Dca.Latency.Accounting
import Dca.Latency.Average
import Dca.Latency.Cleanup
import Dca.Throughput.Server
import Dca.Throughput.Survival
import Dca.Throughput.Network
import Dca.Throughput.Provenance
import Dca.Throughput.Arithmetic
import Dca.Neighbour.Clients
import Dca.Lib.Interference
import Dca.Lib.Objects
import Dca.Db.Threads
import Dca.Db.Mount
import Dca.Db.Asking
import Dca.Lib.Rank
import Dca.Latency.Progress
import Dca.Throughput.Progress
import Dca.Neighbour.Turns
import Dca.Neighbour.Threads
import Dca.Neighbour.Readers
import Dca.Neighbour.Blocks
import Dca.Db.Stacks
import Dca.Db.Dumps
import Dca.Db.Depth
import Dca.Db.DumpText
import Dca.Db.Frontends
import Dca.Db.Floats
