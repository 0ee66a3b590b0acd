import AieTestHarness.Lib.Lts
import AieTestHarness.Lib.Loops
import AieTestHarness.Lib.Slices
import AieTestHarness.Machine
import AieTestHarness.Files
import AieTestHarness.Proof.Files
import AieTestHarness.Sockets
import AieTestHarness.Proof.Sockets
import AieTestHarness.Transaction
import AieTestHarness.Kernel.Channel
import AieTestHarness.Proof.Config
import AieTestHarness.Proof.Inputs
import AieTestHarness.Proof.FuncLayout
import AieTestHarness.Proof.Outputs
import AieTestHarness.Proof.PerfLayout
import AieTestHarness.Proof.Narrowing
import AieTestHarness.Proof.PerfTransmit
import AieTestHarness.Proof.PerfReceive
import AieTestHarness.Lib.Window
import AieTestHarness.Lib.Chunks
import AieTestHarness.Kernel.MemLoop
import AieTestHarness.Proof.MemLoop
import AieTestHarness.Kernel.Transmit
import AieTestHarness.Proof.Transmit
import AieTestHarness.Proof.FuncTransmit
import AieTestHarness.Kernel.Receive
import AieTestHarness.Proof.Words
import AieTestHarness.Proof.Receive
import AieTestHarness.Proof.ReceiveProgress
import AieTestHarness.Proof.FuncReceive
import AieTestHarness.Proof.RoundRobin
import AieTestHarness.Proof.ResultValid
import AieTestHarness.Proof.Residue
import AieTestHarness.Kernel.Counter
import AieTestHarness.Proof.Counter
import AieTestHarness.Server.Main
import AieTestHarness.Proof.Main
import AieTestHarness.Server.FastXM
import AieTestHarness.Server.Manager
import AieTestHarness.Proof.Server
import AieTestHarness.Proof.Session
import AieTestHarness.Proof.Pipeline
import AieTestHarness.Proof.Isolation
import AieTestHarness.Proof.Lookup
import AieTestHarness.Proof.Shutdown
import AieTestHarness.Proof.Delay
import AieTestHarness.Proof.Watchdog
import AieTestHarness.Proof.Address
import AieTestHarness.Proof.WaitForRes
import AieTestHarness.Proof.Interval
import AieTestHarness.Proof.Rejection
import AieTestHarness.Proof.Offer
import AieTestHarness.Proof.Link
import AieTestHarness.Proof.Admission
import AieTestHarness.Proof.Timeouts
import AieTestHarness.Client.Questions
import AieTestHarness.Proof.Delivery
import AieTestHarness.Proof.Turn
import AieTestHarness.Proof.Inflight
import AieTestHarness.Proof.Finish
import AieTestHarness.Proof.Serving
import AieTestHarness.Proof.Blocked
import AieTestHarness.Proof.Completion
import AieTestHarness.Proof.WaiterOrder
import AieTestHarness.Proof.WaitReturns
import AieTestHarness.Legacy
import AieTestHarness.Proof.Legacy
import AieTestHarness.Ports
import AieTestHarness.Proof.Ports
import AieTestHarness.Server.Received
import AieTestHarness.Proof.Received
import AieTestHarness.Proof.Bounds
import AieTestHarness.Lib.Scripts
import AieTestHarness.Conversation
import AieTestHarness.Proof.Conversation
import AieTestHarness.Proof.Graphs
import AieTestHarness.Proof.Identifiers
import AieTestHarness.Proof.Agreement
import AieTestHarness.Lib.Simulation
import AieTestHarness.Kernel.Harness
import AieTestHarness.Proof.Harness
import AieTestHarness.Proof.HarnessTransmit
import AieTestHarness.Proof.HarnessReceive
import AieTestHarness.Proof.Computed
import AieTestHarness.Proof.HarnessFunc
import AieTestHarness.Proof.HarnessPerf
import AieTestHarness.Kernel.Card
import AieTestHarness.Proof.Card
import AieTestHarness.Proof.Loaded
import AieTestHarness.Proof.Device
import AieTestHarness.Proof.Cargo
import AieTestHarness.Proof.Remote
import AieTestHarness.Proof.Local
import AieTestHarness.Proof.TransmitProgress
import AieTestHarness.Proof.HarnessLift
import AieTestHarness.Proof.HarnessProgress
import AieTestHarness.Proof.Timing
import AieTestHarness.Proof.Unrolled
import AieTestHarness.Proof.Streams
