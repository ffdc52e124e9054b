import Xeros.Lib.TSys
import Xeros.Lib.Chain
import Xeros.Lib.Mask
import Xeros.Kernel.Msg
import Xeros.Kernel.Sleep
import Xeros.Kernel.Create
import Xeros.Kernel.DiCalls
import Xeros.Kernel.Dispatch
import Xeros.Lib.I386
import Xeros.Kernel.Ctsw
import Xeros.Logic.Frame
import Xeros.Logic.Quiet
import Xeros.Logic.Served
import Xeros.Logic.Turn
import Xeros.Logic.Boot
import Xeros.Logic.Signals
import Xeros.Theorems.Delivery
import Xeros.Logic.History
import Xeros.Logic.SigStep
import Xeros.Logic.Nested
import Xeros.Theorems.Handlers
import Xeros.Logic.Calls
import Xeros.Theorems.Rendezvous
import Xeros.Theorems.Order
import Xeros.Logic.Links
import Xeros.Logic.Rest
import Xeros.Logic.Queues
import Xeros.Logic.Moves
import Xeros.Logic.Peers
import Xeros.Logic.Safe
import Xeros.Logic.Copy
import Xeros.Logic.Settle
import Xeros.Theorems.Posting
import Xeros.Theorems.Queues
import Xeros.Theorems.Missed
import Xeros.Logic.Pids
import Xeros.Logic.Asserts
import Xeros.Theorems.Pids
import Xeros.Lib.DList
import Xeros.Logic.Heap
import Xeros.Theorems.Heap
import Xeros.Theorems.Carve
import Xeros.Lib.DeltaList
import Xeros.Logic.Sleepers
import Xeros.Theorems.Sleepers
import Xeros.Theorems.Fresh
import Xeros.Logic.Aside
import Xeros.Logic.Driver
import Xeros.Logic.Readers
import Xeros.Theorems.Readers
import Xeros.Logic.Keys
import Xeros.Theorems.Keys
import Xeros.Theorems.Stream
import Xeros.Logic.Rets
import Xeros.Theorems.Resume
import Xeros.Logic.Phase
import Xeros.Theorems.Machine
import Xeros.Theorems.Contexts
import Xeros.Theorems.Starts
import Xeros.Theorems.Footprint
import Xeros.Logic.Line
import Xeros.Logic.Progress
import Xeros.Theorems.Progress
import Xeros.Theorems.Waiting
import Xeros.Theorems.Signal
import Xeros.Logic.Codes
import Xeros.Theorems.Addressing
import Xeros.Logic.Fifo
import Xeros.Theorems.Fifo
import Xeros.Theorems.Release
import Xeros.Logic.Accesses
import Xeros.Theorems.Buffers
import Xeros.Theorems.Table
import Xeros.Theorems.Rejected
import Xeros.Theorems.Insertion
import Xeros.Theorems.Longer
import Xeros.Theorems.Creation
import Xeros.Theorems.Stacks
import Xeros.Logic.Touches
import Xeros.Logic.Stores
import Xeros.Theorems.Overrun
import Xeros.Theorems.Eof
import Xeros.Theorems.Devices
import Xeros.Theorems.Opening
import Xeros.Theorems.Writing
import Xeros.Theorems.Modifiers
import Xeros.Theorems.Removal
import Xeros.Theorems.Copying
import Xeros.Theorems.Flushing
