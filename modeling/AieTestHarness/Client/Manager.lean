import AieTestHarness.Server.Manager

/-!
# The client manager

The main thread makes the calls of `test_harness_mgr_client`, and each transaction the server
accepts gets a waiter (`waitForTestHarness`). Every exchange with the server holds `req_mtx`; a
waiter that asks for the status of its transaction holds `query_mtx` as well. Each thread is
modelled statement by statement, a send or a receive with the statements beside it that no other
thread can observe.
-/

namespace AieTestHarness

/-- A transaction of the client: they are numbered as they are created. -/
abbrev Ref := Nat

/-- A request that leaves the transactions alone. -/
inductive OtherRequest where
  | runAIEGraph (g_idx iters : UInt32)
  | waitForGraph (timeout_millisec : UInt32)
  | getTimeOut
  /-- The one request without an answer. -/
  | setTimeOut (timeout_seconds : UInt64)
  deriving DecidableEq

/-- What the client sends. The server answers `runTestHarness` before it gets the transaction. -/
inductive Request where
  | runTestHarness (trans_size : UInt64)
  | transaction (umode : UInt8) (trans_id timeout : UInt32) (q : MgrServer.Payload)
  | queryTransactionStatus (trans_id : UInt32)
  | waitForTestHarness (trans_id timeout_millisec : UInt32)
  | other (q : OtherRequest)
  | destroy

inductive Answer where
  | trans_accepted (b : Bool)
  | status (s : TransactionStatus)
  | from_aie_ptr (v : List UInt8)
  | perf_ptr (v : List Nat)
  | graph_started (v : List Bool)
  | timeout_seconds (t : UInt64)
  deriving DecidableEq

/-- The threads that lock `req_mtx`. -/
inductive Owner where
  | main
  | waiter (r : Ref)
  deriving DecidableEq

structure WaitForRes where
  timeout_millisec : UInt32
  all : UInt32
  waitforAll : Bool
  server_timeout : UInt64
  deriving DecidableEq

inductive After where
  | done
  /-- `waitForRes` has asked for the interval of the watchdog. -/
  | asked (timeout_millisec num_trans : UInt32)
  | raised (w : WaitForRes)
  | graphs (w : WaitForRes)
  deriving DecidableEq

inductive MainPc where
  | idle
  /-- `runTestHarness` adds up the memory of the pending transactions that are left. -/
  | sizing (r : Ref) (rest : List Ref) (memorySize : Nat)
  | asking (r : Ref) (memorySize : Nat)
  | accepted (r : Ref)
  | sent (r : Ref)
  | exchange (q : OtherRequest) (k : After)
  | exchanging (q : OtherRequest) (k : After)
  | loop (w : WaitForRes)
  | joining (r : Ref) (w : WaitForRes)
  /-- The destructor has deleted the transactions. -/
  | deleted
  | destroyed
  | terminated
  deriving DecidableEq

inductive WaiterPc where
  /-- Before `query_mtx.lock()`. -/
  | start
  /-- At `while(trans->getTimeOut() == 0)`. -/
  | test
  /-- Before `queryTransactionStatus`, and in it. -/
  | query
  | querying
  /-- Before `req_mtx.lock()`. -/
  | leave
  | locked
  | ask
  | asking
  | received (s : TransactionStatus)
  /-- The status is set; the vectors come. -/
  | fromAie
  | perf
  | unlock
  | outputs
  | returned
  deriving DecidableEq

structure MgrClient where
  setup : Setup
  max_memory_usage : Nat
  created : Nat
  transactions : List Ref
  pending_transactions : List Ref
  /-- The keys of `transaction_threads`. -/
  transaction_threads : List Ref
  graph_started : List Bool
  req_mtx : Option Owner
  query_mtx : Option Ref
  heap : Ref → Option Transaction
  main : MainPc
  pc : Ref → WaiterPc
  /-- The timeout each transaction was started with, for the record. -/
  timeout : Ref → UInt32

/-- `static unsigned int trans_id`. -/
def transId (r : Ref) : UInt32 := UInt32.ofNat r

namespace MgrClient

/-- The manager after its constructor, for a server that has `memorySizeMax` bytes. -/
def new (setup : Setup) (graphs : Nat) : MgrClient where
  setup
  max_memory_usage := memorySizeMax
  created := 0
  transactions := []
  pending_transactions := []
  transaction_threads := []
  graph_started := List.replicate graphs false
  req_mtx := none
  query_mtx := none
  heap _ := none
  main := .idle
  pc _ := .returned
  timeout _ := 0

variable (c : MgrClient)

def setTrans (r : Ref) (t : Transaction) : MgrClient :=
  { c with heap := Function.update c.heap r (some t) }

def goto (main : MainPc) : MgrClient := { c with main }

def waiterGoto (r : Ref) (pc : WaiterPc) : MgrClient :=
  { c with pc := Function.update c.pc r pc }

def lockReq (o : Owner) : MgrClient := { c with req_mtx := some o }

def unlockReq : MgrClient := { c with req_mtx := none }

def usage (r : Ref) : Nat := ((c.heap r).map Transaction.getMemoryUsage).getD 0

/-! ### `runTestHarness` -/

/-- `new test_harness_transactions(trans_id++, …)` and `transactions.push_back(trans)`. -/
def create (mode : TestMode) (timeout : UInt32) : MgrClient :=
  { c.setTrans c.created (.new (transId c.created).toNat mode c.setup.num_channels c.setup.word_size
      c.setup.depth c.setup.memWidth timeout.toNat) with
    created := c.created + 1
    transactions := c.transactions ++ [c.created]
    timeout := Function.update c.timeout c.created timeout }

def total : Nat := (c.transactions.map c.usage).sum

/-- Up to the loop over the pending transactions. An exception leaves the new transaction in
`transactions`; what it had been filled with is not used again. No more than the `2 ^ 64` bytes of
an address space can be allocated. -/
def runTestHarness (umode : UInt8) (args : List TestHarnessArgs) (timeout : UInt32) : MgrClient :=
  match TestMode.ofNat? umode.toNat with
  | none => c
  | some mode =>
    let r := c.created
    let c := c.create mode timeout
    match (Transaction.new (transId r).toNat mode c.setup.num_channels c.setup.word_size
        c.setup.depth c.setup.memWidth timeout.toNat).handleInputs args with
    | .error _ => c
    | .ok t =>
      if 2 ^ 64 ≤ (c.setTrans r t).total then c
      else if t.getMemoryUsage > c.max_memory_usage then c.setTrans r t
      else (c.setTrans r t).goto (.sizing r c.pending_transactions t.getMemoryUsage)

def size (r ρ : Ref) (rest : List Ref) (memorySize : Nat) : MgrClient :=
  c.goto (.sizing r rest (u64 (memorySize + c.usage ρ)))

/-- The answer to `runTestHarness`; a refusal is an exception. -/
def answered (r : Ref) (trans_accepted : Bool) : MgrClient :=
  if trans_accepted then c.goto (.accepted r) else (c.goto .idle).unlockReq

def payload (t : Transaction) : Request :=
  .transaction (UInt8.ofNat t.mode.toNat) (UInt32.ofNat t.trans_id) (UInt32.ofNat t.mTimeOut)
    ⟨t.cfg_ptr, t.to_aie_ptr, UInt64.ofNat t.from_aie_ptr.length⟩

/-- The transaction is sent: it is pending from now on, and its waiter starts. -/
def spawn (r : Ref) (t : Transaction) : MgrClient :=
  { ((c.setTrans r { t with status := .TRANSACTION_RUNNING }).waiterGoto r .start).unlockReq with
    pending_transactions := c.pending_transactions ++ [r]
    transaction_threads := c.transaction_threads ++ [r]
    main := .idle }

/-! ### The other calls -/

def runAIEGraph (g_idx iters : UInt32) : MgrClient :=
  match c.graph_started[g_idx.toNat]? with
  | some false => c.goto (.exchange (.runAIEGraph g_idx iters) .done)
  | _ => c

/-- `setServerTimeOut`, which refuses 0. -/
def setServerTimeOut (timeout_seconds : UInt64) (k : After) : MgrClient :=
  if timeout_seconds = 0 then c.goto .idle else c.goto (.exchange (.setTimeOut timeout_seconds) k)

def seconds (timeout_millisec : UInt32) : UInt64 :=
  UInt64.ofNat (u32 (timeout_millisec.toNat + 999) / 1000)

/-- `waitForRes`, when the server has answered for its watchdog. -/
def enter (timeout_millisec num_trans : UInt32) (server_timeout : UInt64) : MgrClient :=
  let w := ⟨timeout_millisec, num_trans, num_trans = 0, server_timeout⟩
  if seconds timeout_millisec ≠ 0 ∧ server_timeout ≠ 0 then
    c.setServerTimeOut (seconds timeout_millisec + server_timeout) (.raised w)
  else c.goto (.loop w)

def leaveLoop (w : WaitForRes) : MgrClient :=
  if w.waitforAll then c.goto (.exchange (.waitForGraph w.timeout_millisec) (.graphs w))
  else c.setServerTimeOut w.server_timeout .done

/-- A pass of the loop of `waitForRes`, up to the join. -/
def setTimeOut (w : WaitForRes) (r : Ref) (t : Transaction) : MgrClient :=
  (c.setTrans r { t with mTimeOut := w.timeout_millisec.toNat }).goto (.joining r w)

def join (w : WaitForRes) (r : Ref) : MgrClient :=
  let c := { c with
    pending_transactions := c.pending_transactions.tail
    transaction_threads := c.transaction_threads.erase r }
  if w.all - 1 = 0 then c.leaveLoop { w with all := w.all - 1 }
  else c.goto (.loop { w with all := w.all - 1 })

def resume (server_timeout : UInt64) : After → MgrClient
  | .done => c.goto .idle
  | .asked timeout_millisec num_trans => c.enter timeout_millisec num_trans server_timeout
  | .raised w => c.goto (.loop w)
  | .graphs w => c.setServerTimeOut w.server_timeout .done

def exchanged (q : OtherRequest) (k : After) (answer : Option Answer) : Option MgrClient :=
  match q, answer with
  | .setTimeOut _, none => some (c.unlockReq.resume 0 k)
  | .getTimeOut, some (.timeout_seconds t) => some (c.unlockReq.resume t k)
  | .runAIEGraph _ _, some (.graph_started v) =>
    some ({ c.unlockReq with graph_started := v }.resume 0 k)
  | .waitForGraph _, some (.graph_started v) =>
    some ({ c.unlockReq with graph_started := v }.resume 0 k)
  | _, _ => none

/-- The destructor: the transactions are deleted. -/
def destroy : MgrClient :=
  { c with
    heap := fun r => if r ∈ c.transactions then none else c.heap r
    transactions := []
    main := .deleted }

/-- The members of the manager are destroyed; a thread that can be joined terminates the process. -/
def release : MgrClient :=
  c.goto (if c.transaction_threads = [] then .destroyed else .terminated)

end MgrClient

end AieTestHarness
