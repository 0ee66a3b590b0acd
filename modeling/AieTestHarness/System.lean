import AieTestHarness.Client.Manager

/-!
# Client and server

One client manager and its session on the server, with the bytes between them: what is sent arrives
in order, and the session thread takes the requests one by one. A step is a statement of the main
thread, of a waiter or of the session thread, or a step of the server that no request is part of.
-/

namespace AieTestHarness

structure System where
  client : MgrClient
  server : MgrServer
  toServer : List Request
  toClient : List Answer
  graph_started : List Bool
  monitorInterval : UInt64

inductive SystemLabel where
  /-- Calls the main thread makes. -/
  | runTestHarness (umode : UInt8) (args : List TestHarnessArgs) (timeout : UInt32)
  | runAIEGraph (g_idx iters : UInt32)
  | waitForRes (timeout_millisec num_trans : UInt32)
  | getServerTimeOut
  | setServerTimeOut (timeout_seconds : UInt64)
  | destroy
  | size
  | ask
  | answered
  | send
  | spawn
  | request
  | exchanged
  | loop
  | join
  /-- The connection fails in an exchange of the main thread. -/
  | fails
  | release
  /-- The statements of a waiter. -/
  | lockQuery (r : Ref)
  | test (r : Ref)
  | query (r : Ref)
  | queried (r : Ref)
  | lockReq (r : Ref)
  | unlockQuery (r : Ref)
  | wait (r : Ref)
  | recvStatus (r : Ref)
  | setStatus (r : Ref)
  | recvFromAie (r : Ref)
  | recvPerf (r : Ref)
  | unlockReq (r : Ref)
  | handleOutputs (r : Ref)
  /-- The connection fails in an exchange of a waiter. -/
  | throws (r : Ref)
  /-- The session thread; `a` is what `new` returns, and `fails` what `fastXM` does with graphs. -/
  | session (a : Addr) (fails : Bool)
  /-- The session thread finds the connection closed. -/
  | lost
  | server (l : ServerLabel)

def SystemLabel.isCall : SystemLabel → Bool
  | .runTestHarness _ _ _ | .runAIEGraph _ _ | .waitForRes _ _ | .getServerTimeOut
  | .setServerTimeOut _ | .destroy => true
  | _ => false

namespace System

def new (setup : Setup) (graphs : Nat) (monitorInterval : UInt64) : System where
  client := .new setup graphs
  server := .new setup
  toServer := []
  toClient := []
  graph_started := List.replicate graphs false
  monitorInterval

variable (s : System)

def withClient (client : MgrClient) : System := { s with client }

def send (m : Request) : System := { s with toServer := s.toServer ++ [m] }

def taken : System := { s with toClient := s.toClient.tail }

/-- The server is gone, and so is all it had sent. -/
def Gone : Prop := s.server.session = .ended ∧ s.toClient = []

instance : Decidable s.Gone := inferInstanceAs (Decidable (_ ∧ _))

/-! ### The main thread -/

def call : SystemLabel → Option MgrClient
  | .runTestHarness umode args timeout => some (s.client.runTestHarness umode args timeout)
  | .runAIEGraph g_idx iters => some (s.client.runAIEGraph g_idx iters)
  | .waitForRes timeout_millisec num_trans =>
    some (s.client.goto (.exchange .getTimeOut (.asked timeout_millisec num_trans)))
  | .getServerTimeOut => some (s.client.goto (.exchange .getTimeOut .done))
  | .setServerTimeOut timeout_seconds => some (s.client.setServerTimeOut timeout_seconds .done)
  | _ => none

def runStep : SystemLabel → Option System
  | .size =>
    match s.client.main with
    | .sizing r (ρ :: rest) memorySize => some (s.withClient (s.client.size r ρ rest memorySize))
    | _ => none
  | .ask =>
    match s.client.main with
    | .sizing r [] memorySize =>
      if s.client.req_mtx = none then
        some ((s.withClient ((s.client.lockReq .main).goto (.asking r memorySize))).send
          (.runTestHarness (UInt64.ofNat (s.client.usage r))))
      else none
    | _ => none
  | .answered =>
    match s.client.main, s.toClient with
    | .asking r _, .trans_accepted b :: _ => some (s.withClient (s.client.answered r b)).taken
    | _, _ => none
  | .send =>
    match s.client.main with
    | .accepted r => (s.client.heap r).map fun t =>
      (s.withClient (s.client.goto (.sent r))).send (MgrClient.payload t)
    | _ => none
  | .spawn =>
    match s.client.main with
    | .sent r => (s.client.heap r).map fun t => s.withClient (s.client.spawn r t)
    | _ => none
  | _ => none

def exchangeStep : SystemLabel → Option System
  | .request =>
    match s.client.main with
    | .exchange q k =>
      if s.client.req_mtx = none then
        some ((s.withClient ((s.client.lockReq .main).goto (.exchanging q k))).send (.other q))
      else none
    | _ => none
  | .exchanged =>
    match s.client.main with
    | .exchanging (.setTimeOut t) k => (s.client.exchanged (.setTimeOut t) k none).map s.withClient
    | .exchanging q k =>
      match s.toClient with
      | answer :: _ => (s.client.exchanged q k (some answer)).map fun c => (s.withClient c).taken
      | [] => none
    | _ => none
  | .fails =>
    match s.client.main with
    | .asking _ _ | .accepted _ | .exchanging _ _ =>
      if s.Gone then some (s.withClient (s.client.goto .idle).unlockReq) else none
    | _ => none
  | _ => none

/-- The statements of `waitForRes` and of the destructor. -/
def waitStep : SystemLabel → Option System
  | .loop =>
    match s.client.main with
    | .loop w =>
      match s.client.pending_transactions with
      | [] => some (s.withClient (s.client.leaveLoop w))
      | r :: _ => (s.client.heap r).map fun t => s.withClient (s.client.setTimeOut w r t)
    | _ => none
  | .join =>
    match s.client.main with
    | .joining r w =>
      if s.client.pc r = .returned then some (s.withClient (s.client.join w r)) else none
    | _ => none
  | .destroy =>
    if s.client.main = .idle ∧ s.client.req_mtx = none then
      some ((s.withClient (s.client.destroy.lockReq .main)).send .destroy)
    else none
  | .release =>
    if s.client.main = .deleted then some (s.withClient s.client.release) else none
  | _ => none

def mainStep (l : SystemLabel) : Option System :=
  match l with
  | .runTestHarness _ _ _ | .runAIEGraph _ _ | .waitForRes _ _ | .getServerTimeOut
  | .setServerTimeOut _ => if s.client.main = .idle then (s.call l).map s.withClient else none
  | .size | .ask | .answered | .send | .spawn => s.runStep l
  | .request | .exchanged | .fails => s.exchangeStep l
  | _ => s.waitStep l

/-! ### A waiter -/

def queryStep (r : Ref) (t : Transaction) : SystemLabel → Option System
  | .lockQuery _ =>
    if s.client.pc r = .start ∧ s.client.query_mtx = none then
      some (s.withClient { s.client.waiterGoto r .test with query_mtx := some r })
    else none
  | .test _ =>
    if s.client.pc r = .test then
      some (s.withClient (s.client.waiterGoto r (if t.mTimeOut = 0 then .query else .leave)))
    else none
  | .query _ =>
    if s.client.pc r = .query ∧ s.client.req_mtx = none then
      some ((s.withClient ((s.client.lockReq (.waiter r)).waiterGoto r .querying)).send
        (.queryTransactionStatus (UInt32.ofNat t.trans_id)))
    else none
  | .queried _ =>
    match s.client.pc r, s.toClient with
    | .querying, .status status :: _ =>
      let done := status = .TRANSACTION_DONE ∨ status = .TRANSACTION_TIMEOUT
      some (s.withClient (s.client.unlockReq.waiterGoto r (if done then .leave else .test))).taken
    | _, _ => none
  | .lockReq _ =>
    if s.client.pc r = .leave ∧ s.client.req_mtx = none then
      some (s.withClient ((s.client.lockReq (.waiter r)).waiterGoto r .locked))
    else none
  | .unlockQuery _ =>
    if s.client.pc r = .locked then
      some (s.withClient { s.client.waiterGoto r .ask with query_mtx := none })
    else none
  | .wait _ =>
    if s.client.pc r = .ask then
      some ((s.withClient (s.client.waiterGoto r .asking)).send
        (.waitForTestHarness (UInt32.ofNat t.trans_id) (UInt32.ofNat t.mTimeOut)))
    else none
  | _ => none

def resultStep (r : Ref) (t : Transaction) : SystemLabel → Option System
  | .recvStatus _ =>
    match s.client.pc r, s.toClient with
    | .asking, .status status :: _ =>
        some (s.withClient (s.client.waiterGoto r (.received status))).taken
    | _, _ => none
  | .setStatus _ =>
    match s.client.pc r with
    | .received status =>
      some (s.withClient ((s.client.setTrans r { t with status }).waiterGoto r .fromAie))
    | _ => none
  | .recvFromAie _ =>
    match s.client.pc r, s.toClient with
    | .fromAie, .from_aie_ptr from_aie_ptr :: _ =>
      some (s.withClient ((s.client.setTrans r { t with from_aie_ptr }).waiterGoto r .perf)).taken
    | _, _ => none
  | .recvPerf _ =>
    match s.client.pc r, s.toClient with
    | .perf, .perf_ptr perf_ptr :: _ =>
      some (s.withClient ((s.client.setTrans r { t with perf_ptr }).waiterGoto r .unlock)).taken
    | _, _ => none
  | .unlockReq _ =>
    if s.client.pc r = .unlock then some (s.withClient (s.client.unlockReq.waiterGoto r .outputs))
    else none
  | .handleOutputs _ =>
    if s.client.pc r = .outputs then
      match t.handleOutputs with
      | .ok t => some (s.withClient ((s.client.setTrans r t).waiterGoto r .returned))
      | .error _ => none
    else none
  | .throws _ =>
    match s.client.pc r with
    | .querying | .asking | .fromAie | .perf =>
      if s.Gone then some (s.withClient (s.client.goto .terminated)) else none
    | _ => none
  | _ => none

/-! ### The session thread -/

/-- What the session thread does next, and what is left of the requests. -/
def sessionLabel (a : Addr) (fails : Bool) : Option (ServerLabel × List Request) :=
  match s.server.session, s.toServer with
  | .idle, .runTestHarness trans_size :: rest => some (.runTestHarness trans_size, rest)
  | .idle, .queryTransactionStatus trans_id :: rest => some (.queryTransactionStatus trans_id, rest)
  | .idle, .waitForTestHarness trans_id timeout :: rest =>
    some (.waitForTestHarness trans_id timeout, rest)
  | .idle, .other (.runAIEGraph _ _) :: rest => some (.other fails, rest)
  | .idle, .other (.waitForGraph _) :: rest => some (.other fails, rest)
  | .idle, .other .getTimeOut :: rest => some (.other false, rest)
  | .idle, .other (.setTimeOut t) :: rest => some (.other (t = 0), rest)
  | .idle, .destroy :: rest => some (.destroy, rest)
  | .admitted _, .transaction umode trans_id timeout q :: rest =>
    -- the buffers are still to be received
    some (.create umode trans_id timeout a, .transaction umode trans_id timeout q :: rest)
  | .created _ _, .transaction _ _ _ q :: rest => some (.receive q, rest)
  | .joining _, rest => some (.join, rest)
  | .answered _, rest => some (.retire, rest)
  | _, _ => none

def statusOf (m : MgrServer) (trans_id : UInt32) : Option TransactionStatus :=
  (m.id2trans trans_id.toNat).bind fun a => (m.heap a).map Transaction.status

/-- What the session thread sends, `m` being the server before and `m'` the server after. -/
def replies (m m' : MgrServer) : ServerLabel → Option (List Answer)
  | .runTestHarness _ => some [.trans_accepted (m'.session ≠ .idle)]
  | .queryTransactionStatus trans_id =>
    if m'.session = .ended then some []
    else (statusOf m trans_id).map fun status => [.status status]
  | .join =>
    match m.session with
    | .joining a => (m.heap a).map fun t =>
      [.status t.status, .from_aie_ptr t.from_aie_ptr, .perf_ptr t.perf_ptr]
    | _ => none
  | _ => some []

/-- The graphs and the watchdog after a request that leaves the transactions alone. -/
def serveOther (q : OtherRequest) : System :=
  match q with
  | .runAIEGraph g_idx _ =>
    let graph_started := s.graph_started.set g_idx.toNat true
    { s with graph_started, toClient := s.toClient ++ [.graph_started graph_started] }
  | .waitForGraph _ =>
    let graph_started := s.graph_started.map fun _ => false
    { s with graph_started, toClient := s.toClient ++ [.graph_started graph_started] }
  | .getTimeOut => { s with toClient := s.toClient ++ [.timeout_seconds s.monitorInterval] }
  | .setTimeOut t => { s with monitorInterval := t }

def otherRequest : Option OtherRequest :=
  match s.server.session, s.toServer with
  | .idle, .other q :: _ => some q
  | _, _ => none

def sessionStep (a : Addr) (fails : Bool) : Option System := do
  let (l, toServer) ← s.sessionLabel a fails
  let server ← MgrServer.lts.step l s.server
  let answers ← replies s.server server l
  let s' := { s with server, toServer, toClient := s.toClient ++ answers }
  match s.otherRequest with
  | some q => if server.session = .ended then some s' else some (s'.serveOther q)
  | none => some s'

def serverStep (l : ServerLabel) : Option System :=
  match l with
  | .pl _ | .wait _ _ | .complete _ | .write _ _ _ =>
    (MgrServer.lts.step l s.server).map fun server => { s with server }
  | _ => none

/-- The session thread finds the connection closed where it receives or sends: the results are sent
once the thread is joined. -/
def lostStep : Option System :=
  match s.server.session with
  | .idle | .admitted _ | .created _ _ => some { s with server := s.server.fail }
  | .joining a => if s.server.pc a = .returned then some
      { s with server := s.server.fail } else none
  | .answered _ | .ended => none

def waiterOf : SystemLabel → Option Ref
  | .lockQuery r | .test r | .query r | .queried r | .lockReq r | .unlockQuery r | .wait r
  | .recvStatus r | .setStatus r | .recvFromAie r | .recvPerf r | .unlockReq r | .handleOutputs r
  | .throws r => some r
  | _ => none

def waiterStep (r : Ref) (l : SystemLabel) : Option System :=
  match s.client.heap r with
  | none => none
  | some t =>
    match l with
    | .lockQuery _ | .test _ | .query _ | .queried _ | .lockReq _ | .unlockQuery _ | .wait _ =>
      s.queryStep r t l
    | _ => s.resultStep r t l

def lts : Lts System SystemLabel where
  step l s :=
    match l with
    | .session a fails => s.sessionStep a fails
    | .lost => s.lostStep
    | .server l => s.serverStep l
    | l =>
      -- a process that is terminated does nothing
      if s.client.main = .terminated then none
      else
        match waiterOf l with
        | some r => s.waiterStep r l
        | none => s.mainStep l

end System

end AieTestHarness
