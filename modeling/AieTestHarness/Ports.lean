import AieTestHarness.Sockets

/-!
# Graph ports

The client's `writeGraphPort` and `readGraphPort`, the functions of the server that go with them,
and the loop of `test_harness_session` that reads the requests. What the other requests do is a
parameter, and so is what a port holds.
-/

namespace AieTestHarness

open Chunks Sockets

inductive PortCall where
  | read (g_idx : Nat) (port_name : List UInt8) (d_size : Nat)
  | write (g_idx : Nat) (port_name data : List UInt8)
  deriving DecidableEq

namespace Ports

def ascii (s : String) : List UInt8 := s.toList.map fun c => UInt8.ofNat c.toNat

/-- The sizes the server tells apart. -/
def IsSize (d_size : Nat) : Prop := d_size = 1 ∨ d_size = 2 ∨ d_size = 4 ∨ d_size = 8

instance (d_size : Nat) : Decidable (IsSize d_size) := inferInstanceAs (Decidable (_ ∨ _))

def outOfRange : Fault :=
  .exn (.testHarness .INVALID_ARGUMENTS "The data size is out of range.")

/-! ### The client -/

/-- `writeGraphPort`. `object` is what a `std::vector<uint8_t>` of the value looks like in
memory. -/
def clientWrite (g_idx : UInt32) (port_name value object : List UInt8) : Writer Unit := do
  let _ ← sendString (ascii "update port")
  let _ ← sendPod (leBytes 4 g_idx.toNat)
  let _ ← sendString port_name
  if value.length < 1 ∨ value.length > 8 then throw outOfRange
  -- `sendData(const T&)`: the overload for vectors has another name
  let _ ← sendPod object

def clientRead (g_idx : UInt32) (port_name : List UInt8) (d_size : Nat) : Writer Unit := do
  let _ ← sendString (ascii "read port")
  let _ ← sendPod (leBytes 4 g_idx.toNat)
  let _ ← sendString port_name
  if d_size < 1 ∨ d_size > 8 then throw outOfRange
  let _ ← sendPod (leBytes 4 d_size)

/-- The rest of `readGraphPort`: `recvData(T&)` writes over the vector itself, and what its pointers
point to then is copied. -/
def clientAnswer (atEnd : Fault) : Sockets.Reader (List UInt8) := do
  let _ ← recvPod atEnd 24
  throw (.exn .undefined)

/-! ### The server -/

inductive Served where
  | create
  | runTestHarness
  | runAIEGraph
  | waitForTestHarness
  | waitForGraph
  | queryTransactionStatus
  | destroy
  | setTimeOut
  | getTimeOut
  | readGraphPort
  | writeGraphPort
  deriving DecidableEq

/-- The names `test_harness_session::run` compares a request with. -/
def requests : List (String × Served) :=
  [("test_harness_mgr", .create), ("runTestHarness", .runTestHarness),
    ("runAIEGraph", .runAIEGraph),
    ("waitForTestHarness", .waitForTestHarness), ("waitForGraph", .waitForGraph),
    ("queryTransactionStatus", .queryTransactionStatus), ("destroy", .destroy),
    ("setTimeOut", .setTimeOut), ("getTimeOut", .getTimeOut)]

def dispatch (request : List UInt8) : Option Served :=
  (requests.find? fun entry => request = ascii entry.1).map Prod.snd

structure Env where
  atEnd : Fault
  /-- What a request that is no port request reads, and what it sends. -/
  other : Served → Sockets.Reader (List UInt8)
  /-- What a graph returns for a port, in as many bytes as it is asked for. -/
  port : Nat → List UInt8 → Nat → List UInt8
  /-- The `d_size` of the server's `writeGraphPort`, which nothing assigns. -/
  d_size : Nat

structure Server where
  unknownReqCount : Nat
  calls : List PortCall
  sent : List UInt8

variable (env : Env)

/-- A `SocketException` is caught and thrown again. -/
def rethrown {α : Type} (message : String) (r : Sockets.Reader α) : Sockets.Reader α := fun s =>
  match r s with
  | .error (.exn (.socket _ e)) =>
    .error (.exn (.testHarness .TEST_HARNESS_RUN_FAILURE (message ++ e)))
  | result => result

def readGraphPort (s : Server) : Sockets.Reader Server :=
  rethrown "Failed to read AIE graph port on the server due to error " do
    let (g_idx, _) ← recvPod env.atEnd 4
    let (port_name, _) ← recvString env.atEnd
    let (d_size, _) ← recvPod env.atEnd 4
    allocate (leNat d_size)
    if IsSize (leNat d_size) then
      let port_data := env.port (leNat g_idx) port_name (leNat d_size)
      return { s with
        calls := s.calls ++ [.read (leNat g_idx) port_name (leNat d_size)]
        sent := s.sent ++ leBytes 8 port_data.length ++ port_data }
    else throw outOfRange

def writeGraphPort (s : Server) : Sockets.Reader Server :=
  rethrown "Failed to write AIE graph port on the server due to error " do
    let (g_idx, _) ← recvPod env.atEnd 4
    let (port_name, _) ← recvString env.atEnd
    let (port_data, _) ← recvVec env.atEnd 1
    if IsSize env.d_size then
      if port_data.length < env.d_size then throw (.exn .undefined)
      else
        return { s with
          calls := s.calls ++ [.write (leNat g_idx) port_name (port_data.flatten.take env.d_size)] }
    else throw outOfRange

def unknownRequests : Fault :=
  .exn (.testHarness .UNKNOWN_REQUEST "Existing due to too many unknown requests.")

/-- What follows on a request, and whether another one is waited for. -/
def serve (s : Server) : Option Served → Sockets.Reader (Server × Bool)
  | some .readGraphPort => return (← readGraphPort env s, true)
  | some .writeGraphPort => return (← writeGraphPort env s, true)
  | some .destroy => return (s, false)
  | some q => do
    let sent ← env.other q
    return ({ s with sent := s.sent ++ sent }, true)
  | none =>
    if s.unknownReqCount + 1 > 10 then throw unknownRequests
    else return ({ s with unknownReqCount := s.unknownReqCount + 1 }, true)

def pass (s : Server) : Sockets.Reader (Server × Bool) := do
  let (request, _) ← recvString env.atEnd
  serve env s (dispatch request)

def run : Nat → Server → Sockets.Reader Server
  | 0, s => return s
  | n + 1, s => do
    let (s, more) ← pass env s
    if more then run n s else return s

end Ports

end AieTestHarness
