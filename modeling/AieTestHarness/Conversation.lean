import AieTestHarness.Lib.Scripts
import AieTestHarness.Sockets
import AieTestHarness.System

/-!
# What client and server send and receive

Every request is sent field by field in one file and received field by field in another. The values
of the messages, the calls that receive them and the scripts both sides leave, from the confirmation
of the connection to the log files behind `destroy`.
-/

namespace AieTestHarness

open Sockets Chunks Scripts

abbrev Operation := Op Value Call

/-- What is received is of the type and the length of what is sent. -/
def Sockets.Call.Takes : Call → Value → Prop
  | .pod sizeof, .pod data => data.length = sizeof
  | .str, .str _ => True
  | .vec sizeof, .vec sizeof' buffer => sizeof' = sizeof ∧ ∀ b ∈ buffer, b.length = sizeof
  | .bools, .bools _ => True
  | .strs, .strs _ => True
  | .file _, .file _ => True
  | .files, .files _ => True
  | _, _ => False

namespace Sockets.Value

def bool (b : Bool) : Value := .pod [if b then 1 else 0]

def uint32 (n : UInt32) : Value := .pod (leBytes 4 n.toNat)

def uint64 (n : UInt64) : Value := .pod (leBytes 8 n.toNat)

def chars (v : List UInt8) : Value := .vec 1 (v.map fun b => [b])

def words (v : List Nat) : Value := .vec 8 (v.map (leBytes 8))

def name (s : String) : List UInt8 := s.toList.map fun c => UInt8.ofNat c.toNat

def sendReq (s : String) : Value := .str (name s)

end Sockets.Value

open Sockets.Value

/-! ### The client -/

/-- What is sent of a request, and of a transaction behind `runTestHarness`. -/
def Request.values : Request → List Value
  | .runTestHarness trans_size => [sendReq "runTestHarness", uint64 trans_size]
  | .transaction umode trans_id timeout q =>
    [.pod [umode], uint32 trans_id, uint32 timeout, words q.cfg_ptr, chars q.to_aie_ptr,
      uint64 q.from_aie_size]
  | .queryTransactionStatus trans_id => [sendReq "queryTransactionStatus", uint32 trans_id]
  | .waitForTestHarness trans_id timeout_millisec =>
    [sendReq "waitForTestHarness", uint32 trans_id, uint32 timeout_millisec]
  | .other (.runAIEGraph g_idx iters) => [sendReq "runAIEGraph", uint32 g_idx, uint32 iters]
  | .other (.waitForGraph timeout_millisec) => [sendReq "waitForGraph", uint32 timeout_millisec]
  | .other .getTimeOut => [sendReq "getTimeOut"]
  | .other (.setTimeOut timeout_seconds) => [sendReq "setTimeOut", uint64 timeout_seconds]
  | .destroy => [sendReq "destroy"]

def OtherRequest.call : OtherRequest → Option Call
  | .runAIEGraph _ _ | .waitForGraph _ => some .bools
  | .getTimeOut => some (.pod 8)
  | .setTimeOut _ => none

def MainPc.call : MainPc → Option Call
  | .asking _ _ => some (.pod 1)
  | .exchanging q _ => q.call
  | _ => none

/-- What a waiter receives: `queryTransactionStatus`, then the results. -/
def WaiterPc.call : WaiterPc → Option Call
  | .querying | .asking => some (.pod 1)
  | .fromAie => some (.vec 1)
  | .perf => some (.vec 8)
  | _ => none

/-- What the thread that holds `req_mtx` receives. -/
def MgrClient.call (c : MgrClient) : Option Call :=
  match c.req_mtx with
  | none => none
  | some .main => c.main.call
  | some (.waiter r) => (c.pc r).call

/-! ### The server -/

def TransactionStatus.code : TransactionStatus → UInt8
  | .TRANSACTION_CREATED => 0
  | .TRANSACTION_READY => 1
  | .TRANSACTION_RUNNING => 2
  | .TRANSACTION_TIMEOUT => 3
  | .TRANSACTION_DONE => 4

def Answer.value : Answer → Value
  | .trans_accepted b => bool b
  | .status s => .pod [s.code]
  | .from_aie_ptr v => chars v
  | .perf_ptr v => words v
  | .graph_started v => .bools v
  | .timeout_seconds t => uint64 t

/-- What the session loop receives behind the name of a request; it knows no other. -/
def handler (request : List UInt8) : Option (List Call) :=
  if request = name "test_harness_mgr" then some []
  else if request = name "runTestHarness" then some [.pod 8]
  else if request = name "runAIEGraph" then some [.pod 4, .pod 4]
  else if request = name "waitForTestHarness" then some [.pod 4, .pod 4]
  else if request = name "waitForGraph" then some [.pod 4]
  else if request = name "queryTransactionStatus" then some [.pod 4]
  else if request = name "destroy" then some []
  else if request = name "setTimeOut" then some [.pod 8]
  else if request = name "getTimeOut" then some []
  else none

def requestCalls : List Value → List Call
  | .str request :: _ => .str :: (handler request).getD []
  | _ => [.str]

namespace System

def sessionCalls (s s' : System) : List Call :=
  match s.server.session, s.toServer with
  | .idle, m :: _ => if s'.toServer.length < s.toServer.length then requestCalls m.values else []
  | .admitted _, _ =>
    if s'.server.session = s.server.session then [] else [.pod 1, .pod 4, .pod 4]
  | .created _ _, _ =>
    if s'.toServer.length < s.toServer.length then [.vec 8, .vec 1, .pod 8] else []
  | _, _ => []

def clientOps (s s' : System) : List Operation :=
  ((s'.toServer.drop s.toServer.length).flatMap Request.values).map .send
    ++ if s'.toClient.length < s.toClient.length then s.client.call.toList.map .recv else []

def serverOps (s s' : System) : List Operation :=
  (sessionCalls s s').map .recv
    ++ ((s'.toClient.drop s.toClient.length).map Answer.value).map .send

def destroys (s s' : System) : Bool :=
  match s.server.session, s.toServer with
  | .idle, .destroy :: _ => s'.toServer.length < s.toServer.length
  | _, _ => false

end System

/-! ### The constructors -/

structure Creation where
  xrt_config : Bool
  device : List UInt8
  device_index : UInt32
  graph_name : List (List UInt8)
  xclbin_file_path : Path
  xclbin_exists : Bool
  /-- The device and the parameters the server is built for. -/
  server_device : List UInt8
  setup : Setup
  /-- `fastXM` opens the device, its xclbins and the graphs. -/
  opens : Bool
  monitorInterval : UInt64

namespace Creation

variable (k : Creation)

def config_files : List Path := if k.xrt_config then [[name "xrt.ini"]] else []

def Supported : Prop :=
  k.server_device = name "vek280" ∨ k.server_device = name "vck190"
    ∨ k.server_device = name "vek385"

instance : Decidable k.Supported := inferInstanceAs (Decidable (_ ∨ _))

def Accepted : Prop := k.Supported ∧ k.device = k.server_device

instance : Decidable k.Accepted := inferInstanceAs (Decidable (_ ∧ _))

def Succeeds : Prop := k.Accepted ∧ k.xclbin_exists ∧ k.opens

instance : Decidable k.Succeeds := inferInstanceAs (Decidable (_ ∧ _))

/-- The constructor of the client, up to the exception where there is one. -/
def client : List Operation :=
  [.recv (.pod 1), .send (bool true), .send (.files k.config_files),
      .send (sendReq "test_harness_mgr"), .send (.str k.device)]
    ++ if k.Accepted then
      [.recv (.pod 1), .recv (.pod 4), .recv (.pod 4), .recv (.pod 4), .recv (.pod 4),
        .send (uint32 k.device_index), .send (.strs k.graph_name),
        .send (.bools (List.replicate k.graph_name.length false)),
        .send (.strs [k.device ++ name "_test_harness"])]
        ++ (if k.xclbin_exists then [.send (.file k.xclbin_file_path)] else [])
        ++ if k.xclbin_exists ∧ k.opens then [.recv (.pod 8)] else []
    else if k.Supported then [.recv (.pod 1), .recv .str]
    else []

def server : List Operation :=
  [.send (bool true), .recv (.pod 1), .recv .files, .recv .str]
    ++ if k.Accepted then
      [.recv .str, .send (bool true), .send (uint32 (UInt32.ofNat k.setup.num_channels)),
        .send (uint32 (UInt32.ofNat k.setup.word_size)),
        .send (uint32 (UInt32.ofNat k.setup.depth)),
        .send (uint32 (UInt32.ofNat k.setup.memWidth)), .recv (.pod 4), .recv .strs, .recv .bools,
        .recv .strs]
        ++ (if k.xclbin_exists then [.recv (.file [name "xclbins"])] else [])
        ++ if k.xclbin_exists ∧ k.opens then [.send (uint64 (UInt64.ofNat memorySizeMax))] else []
    else if k.Supported then [.recv .str, .send (bool false), .send (.str k.server_device)]
    else []

end Creation

/-! ### Whole conversations -/

inductive Phase where
  | connected
  | refused
  | created
  deriving DecidableEq

/-- `syncWorkDir` of the server and `getLogFiles` of the client. -/
inductive LogFiles where
  | none
  | sent (files : List Path)
  | received
  deriving DecidableEq

structure Conversation where
  creation : Creation
  phase : Phase
  system : System
  client : List Operation
  server : List Operation
  destroyed : Bool
  log_files : LogFiles

inductive ConversationLabel where
  | construct
  | system (l : SystemLabel)
  | syncWorkDir (files : List Path)
  | getLogFiles

namespace Conversation

def start (k : Creation) : Conversation where
  creation := k
  phase := .connected
  system := .new k.setup k.graph_name.length k.monitorInterval
  client := []
  server := []
  destroyed := false
  log_files := .none

variable (c : Conversation)

def construct : Conversation :=
  { c with
    phase := if c.creation.Succeeds then .created else .refused
    client := c.client ++ c.creation.client
    server := c.server ++ c.creation.server }

def follow (l : SystemLabel) : Option Conversation :=
  if c.phase = .created then
    (System.lts.step l c.system).map fun system =>
      { c with
        system
        client := c.client ++ c.system.clientOps system
        server := c.server ++ c.system.serverOps system
        destroyed := c.destroyed || c.system.destroys system }
  else none

/-- The destructor waits for the log files where there has been an `xrt.ini`. -/
def systemStep (l : SystemLabel) : Option Conversation :=
  match l with
  | .release => if c.creation.xrt_config ∧ c.log_files ≠ .received then none else c.follow l
  | _ => c.follow l

/-- The session process has ended; that it has ended by itself is all the server looks at. -/
def syncWorkDir (files : List Path) : Option Conversation :=
  if c.phase = .created ∧ c.system.server.session = .ended ∧ c.creation.xrt_config
      ∧ c.log_files = .none then
    some { c with server := c.server ++ [.send (.files files)], log_files := .sent files }
  else none

def getLogFiles : Option Conversation :=
  match c.log_files with
  | .sent _ =>
    if c.system.client.main = .deleted then
      some { c with client := c.client ++ [.recv .files], log_files := .received }
    else none
  | _ => none

def lts : Lts Conversation ConversationLabel where
  step l c :=
    match l with
    | .construct => if c.phase = .connected then some c.construct else none
    | .system l => c.systemStep l
    | .syncWorkDir log_file_paths => c.syncWorkDir log_file_paths
    | .getLogFiles => c.getLogFiles

end Conversation

end AieTestHarness
