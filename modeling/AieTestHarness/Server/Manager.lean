import AieTestHarness.Lib.Lts
import AieTestHarness.Server.FastXM

/-!
# The server manager

The session thread serves one request after the other (`test_harness_session::run`), and each
transaction it accepts gets a thread of its own (`test_harness_mgr_server::runPL`), which waits
until the transaction is the first of the queue. A run interleaves the statements of these threads
with the runs of the PL. Nothing happens any more once the session has ended.
-/

namespace AieTestHarness

def memorySizeMax : Nat := 1024 * 1024 * 1024

inductive SessionPc where
  | idle
  /-- `runTestHarness` has answered that it accepts `trans_size` bytes. -/
  | admitted (trans_size : UInt64)
  /-- The transaction is in the queue, its buffers are still to be received. -/
  | created (a : Addr) (trans_size : UInt64)
  | joining (a : Addr)
  | answered (a : Addr)
  | ended
  deriving DecidableEq

/-- Where `runPL` stands; `r` is the run it has started. -/
inductive PlPc where
  /-- At `while(transactions.front() != trans)`. -/
  | waiting
  | passed
  | locked
  | started (r : Nat)
  /-- At `while(trans->getTimeOut() == 0)`. -/
  | loop (r : Nat)
  /-- Waiting one `mMonitorTimeout`. -/
  | polling (r : Nat)
  | polled (r : Nat)
  | fetched (r : Nat)
  /-- Waiting for the time that is left. -/
  | bounded (r : Nat)
  | decided (r : Nat)
  | returned
  deriving DecidableEq

inductive Event where
  | accepted (trans_id : Nat)
  | started (trans_id r : Nat)
  | decided (trans_id : Nat) (status : TransactionStatus)
  /-- The transaction's thread called `fetchRes`; the buffers of its run held this then. -/
  | fetched (trans_id r : Nat) (perf_ptr : List Nat) (from_aie_ptr : List UInt8)
  /-- What `waitForTestHarness` sent. -/
  | answered (trans_id : Nat) (status : TransactionStatus) (perf_ptr : List Nat)
      (from_aie_ptr : List UInt8)

structure MgrServer where
  setup : Setup
  transactions : List Addr
  pl_threads : List Addr
  id2trans : Nat → Option Addr
  memorySize : Nat
  pl_mtx : Option Addr
  fastObj : FastXM
  heap : Addr → Option Transaction
  pc : Addr → PlPc
  session : SessionPc
  log : List Event

namespace MgrServer

def new (setup : Setup) : MgrServer where
  setup
  transactions := []
  pl_threads := []
  id2trans _ := none
  memorySize := 0
  pl_mtx := none
  fastObj := .new
  heap _ := none
  pc _ := .returned
  session := .idle
  log := []

/-- An exception leaves the session loop. -/
def fail (m : MgrServer) : MgrServer := { m with session := .ended }

def setTrans (m : MgrServer) (a : Addr) (t : Transaction) : MgrServer :=
  { m with heap := Function.update m.heap a (some t) }

/-! ### `runTestHarness` -/

/-- The sum of an atomic `uint64_t` and a `size_t` is checked before anything is received. -/
def runTestHarness (m : MgrServer) (trans_size : UInt64) : MgrServer :=
  if u64 (m.memorySize + trans_size.toNat) > memorySizeMax then m
  else { m with session := .admitted trans_size }

/-- Up to the insertion into the queue; `a` is what `new` returns. The constructor takes the timeout
for `memWidth`. -/
def create (m : MgrServer) (trans_size : UInt64) (umode : UInt8) (trans_id timeout : UInt32)
    (a : Addr) : MgrServer :=
  match TestMode.ofNat? umode.toNat with
  | none => m.fail
  | some mode =>
    if (m.id2trans trans_id.toNat).isSome then m.fail
    else
      { m.setTrans a (.new trans_id.toNat mode m.setup.num_channels m.setup.word_size m.setup.depth
          timeout.toNat 0) with
        transactions := m.transactions ++ [a]
        id2trans := Function.update m.id2trans trans_id.toNat (some a)
        session := .created a trans_size
        log := m.log ++ [.accepted trans_id.toNat] }

/-- The buffers a client sends, and the size of the one it wants back. -/
structure Payload where
  cfg_ptr : List Nat
  to_aie_ptr : List UInt8
  from_aie_size : UInt64

def Payload.Large (q : Payload) : Prop :=
  2 ^ 62 ≤ q.cfg_ptr.length * 8 ∨ 2 ^ 62 ≤ q.to_aie_ptr.length ∨ 2 ^ 62 ≤ q.from_aie_size.toNat

instance (q : Payload) : Decidable q.Large := inferInstanceAs (Decidable (_ ∨ _))

def Payload.fill (q : Payload) (t : Transaction) : Transaction :=
  { t with
    cfg_ptr := q.cfg_ptr
    to_aie_ptr := q.to_aie_ptr
    from_aie_ptr := List.replicate q.from_aie_size.toNat 0
    status := .TRANSACTION_READY }

/-- The rest of `runTestHarness`, up to the start of the thread. -/
def receive (m : MgrServer) (a : Addr) (t : Transaction) (trans_size : UInt64) (q : Payload) :
    MgrServer :=
  if q.Large ∨ (q.fill t).getMemoryUsage ≠ trans_size.toNat then m.fail
  else
    { m.setTrans a (q.fill t) with
      memorySize := u64 (m.memorySize + (q.fill t).getMemoryUsage)
      pl_threads := m.pl_threads ++ [a]
      pc := Function.update m.pc a .waiting
      session := .idle }

/-! ### `waitForTestHarness` -/

/-- Up to the join. -/
def waitForTestHarness (m : MgrServer) (tran_id timeout_millisec : UInt32) : MgrServer :=
  match m.pl_threads, m.transactions with
  | [], _ => m.fail
  | _, [] => m.fail
  | _, a :: _ =>
    if a ∉ m.pl_threads ∨ m.pl_threads.length ≠ m.transactions.length then m.fail
    else
      match m.heap a with
      | none => m.fail
      | some t =>
        if tran_id.toNat ≠ t.trans_id then m.fail
        else
          { m.setTrans a { t with mTimeOut := timeout_millisec.toNat } with session := .joining a }

/-- The thread is joined and the results are sent. -/
def answer (m : MgrServer) (a : Addr) (t : Transaction) : MgrServer :=
  { m with
    session := .answered a
    log := m.log ++ [.answered t.trans_id t.status t.perf_ptr t.from_aie_ptr] }

def retire (m : MgrServer) (a : Addr) (t : Transaction) : MgrServer :=
  { m with
    pl_threads := m.pl_threads.erase a
    transactions := m.transactions.tail
    memorySize := u64 (m.memorySize + 2 ^ 64 - t.getMemoryUsage)
    heap := Function.update m.heap a none
    session := .idle }

/-! ### `runPL` -/

def goto (m : MgrServer) (a : Addr) (pc : PlPc) : MgrServer :=
  { m with pc := Function.update m.pc a pc }

def record (m : MgrServer) (e : Event) : MgrServer := { m with log := m.log ++ [e] }

/-- `fastObj->runPL(0, pl_args)`. -/
def start (m : MgrServer) (a : Addr) (t : Transaction) : MgrServer :=
  { m with
    fastObj := m.fastObj.runPL a t
    pc := Function.update m.pc a (.started m.fastObj.started)
    log := m.log ++ [.started t.trans_id m.fastObj.started] }

/-- `fastObj->fetchRes()`. -/
def fetch (m : MgrServer) (t : Transaction) (r : Nat) : MgrServer :=
  { m with
    fastObj := m.fastObj.clear
    heap := m.fastObj.readAll m.heap
    log := m.log ++ [.fetched t.trans_id r (m.fastObj.mem r).perf (m.fastObj.mem r).from_aie] }

/-- `trans->setStatus(status)` at the end of a run. -/
def decide (m : MgrServer) (a : Addr) (t : Transaction) (status : TransactionStatus) : MgrServer :=
  (m.setTrans a { t with status }).record (.decided t.trans_id status)

/-- The lock is released and the thread ends. -/
def finish (m : MgrServer) (a : Addr) : MgrServer := { m.goto a .returned with pl_mtx := none }

/-- The next statement of the thread of `a`; `none` while it waits for the queue, for the lock or
for the device. -/
def plStep (m : MgrServer) (a : Addr) (t : Transaction) : Option MgrServer :=
  match m.pc a with
  | .waiting => if m.transactions.head? = some a then some (m.goto a .passed) else none
  | .passed =>
    if m.pl_mtx = none then some { m.goto a .locked with pl_mtx := some a } else none
  | .locked => some (m.start a t)
  | .started r => some ((m.setTrans a { t with status := .TRANSACTION_RUNNING }).goto a (.loop r))
  | .loop r => some (m.goto a (if t.mTimeOut = 0 then .polling r else .bounded r))
  | .polled r => some ((m.fetch t r).goto a (.fetched r))
  | .fetched _ => some ((m.decide a t .TRANSACTION_DONE).finish a)
  | .decided r => some ((m.fetch t r).finish a)
  | .polling _ => none
  | .bounded _ => none
  | .returned => none

/-- The wait of the thread of `a` ends, `done` being its result. -/
def waitStep (m : MgrServer) (a : Addr) (t : Transaction) (done : Bool) : Option MgrServer :=
  if done ↔ m.fastObj.AllDone then
    match m.pc a with
    | .polling r => some (m.goto a (if done then .polled r else .loop r))
    | .bounded r =>
      some ((m.decide a t (if done then .TRANSACTION_DONE else .TRANSACTION_TIMEOUT)).goto a
        (.decided r))
    | _ => none
  else none

end MgrServer

/-- The requests, the statements of the session thread that follow them, those of the other threads,
and what the device does. -/
inductive ServerLabel where
  | runTestHarness (trans_size : UInt64)
  | create (umode : UInt8) (trans_id timeout : UInt32) (a : Addr)
  | receive (q : MgrServer.Payload)
  | waitForTestHarness (tran_id timeout_millisec : UInt32)
  | join
  | retire
  | queryTransactionStatus (trans_id : UInt32)
  /-- A request that leaves the transactions alone. -/
  | other (fails : Bool)
  /-- `destroy`, or a second `test_harness_mgr`. -/
  | destroy
  | pl (a : Addr)
  | wait (a : Addr) (done : Bool)
  | complete (r : Nat)
  | write (r : Nat) (perf : List Nat) (from_aie : List UInt8)

namespace MgrServer

def sessionStep (m : MgrServer) : ServerLabel → Option MgrServer
  | .runTestHarness trans_size =>
    if m.session = .idle then some (m.runTestHarness trans_size) else none
  | .create umode trans_id timeout a =>
    match m.session, m.heap a with
    | .admitted trans_size, none => some (m.create trans_size umode trans_id timeout a)
    | _, _ => none
  | .receive q =>
    match m.session with
    | .created a trans_size => (m.heap a).map fun t => m.receive a t trans_size q
    | _ => none
  | .waitForTestHarness tran_id timeout_millisec =>
    if m.session = .idle then some (m.waitForTestHarness tran_id timeout_millisec) else none
  | .join =>
    match m.session with
    | .joining a => if m.pc a = .returned then (m.heap a).map (m.answer a) else none
    | _ => none
  | .retire =>
    match m.session with
    | .answered a => (m.heap a).map (m.retire a)
    | _ => none
  | .queryTransactionStatus trans_id =>
    if m.session = .idle then
      some (if (m.id2trans trans_id.toNat).isSome then m else m.fail)
    else none
  | .other fails => if m.session = .idle then some (if fails then m.fail else m) else none
  | .destroy => if m.session = .idle then some m.fail else none
  | _ => none

def lts : Lts MgrServer ServerLabel where
  step l m :=
    if m.session = .ended then none
    else
      match l with
      | .pl a => if a ∈ m.pl_threads then (m.heap a).bind (m.plStep a) else none
      | .wait a done => if a ∈ m.pl_threads then (m.heap a).bind (m.waitStep a · done) else none
      | .complete r =>
        if m.fastObj.runs r = .live then some { m with fastObj := m.fastObj.complete r } else none
      | .write r perf from_aie =>
        if m.fastObj.runs r = .live ∧ perf.length = (m.fastObj.mem r).perf.length
            ∧ from_aie.length = (m.fastObj.mem r).from_aie.length then
          some { m with fastObj := m.fastObj.write r perf from_aie }
        else none
      | l => m.sessionStep l

end MgrServer

end AieTestHarness
