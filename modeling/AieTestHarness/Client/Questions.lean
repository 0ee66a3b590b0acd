import AieTestHarness.System

/-!
# Questions about a transaction

`isResultValid`, `printPerf` and `getDelayBetween` run in the main thread between two other calls
and lock nothing. They read the status of a transaction and then what its waiter has entered, while
the waiter goes on.
-/

namespace AieTestHarness

open Transaction

inductive Question where
  | isResultValid
  | printPerf
  | getDelayBetween (id_from id_to : UInt16)
  deriving DecidableEq

/-- The entries of `perf_map` that are looked up for a transaction that is done. -/
def Question.entries (t : Transaction) : Question → List UInt16
  | .isResultValid => []
  | .printPerf =>
    (t.args_rec.filter fun a => a.IsTo t.setup).map TestHarnessArgs.idx
      ++ (t.args_rec.filter fun a => a.IsFrom t.setup).map TestHarnessArgs.idx
  | .getDelayBetween id_from id_to =>
    if WrongChannels t.setup id_from id_to ∨ WrongChannels t.setup id_to id_from then []
    else [id_to, id_from]

inductive QuestionPc where
  | none
  /-- `sanctifyTransIdx(-1)` has these transactions left, the last one first. -/
  | scanning (q : Question) (left : List Ref)
  | found (q : Question) (r : Ref)
  | reading (r : Ref) (entries : List UInt16)
  deriving DecidableEq

/-- What a waiter has received, and what `handleOutputs` has made of its transaction. -/
inductive Delivery where
  | from_aie_ptr (r : Ref) (v : List UInt8)
  | perf_ptr (r : Ref) (v : List Nat)
  | outputs (r : Ref) (t t' : Transaction)

/-- Client and server, with what the main thread asks in between. -/
structure Application where
  system : System
  question : QuestionPc
  log : List Delivery

inductive ApplicationLabel where
  | system (l : SystemLabel)
  | ask (q : Question) (idx : Int32)
  | scan
  | check
  | lookup

namespace Application

def new (setup : Setup) (graphs : Nat) (monitorInterval : UInt64) : Application where
  system := .new setup graphs monitorInterval
  question := .none
  log := []

variable (a : Application)

def goto (question : QuestionPc) : Application := { a with question }

def setTrans (r : Ref) (t : Transaction) : Application :=
  { a with system := a.system.withClient (a.system.client.setTrans r t) }

def delivered (s s' : System) : SystemLabel → List Delivery
  | .recvFromAie r => (s'.client.heap r).toList.map fun t => .from_aie_ptr r t.from_aie_ptr
  | .recvPerf r => (s'.client.heap r).toList.map fun t => .perf_ptr r t.perf_ptr
  | .handleOutputs r =>
    (s.client.heap r).toList.flatMap fun t => (s'.client.heap r).toList.map (.outputs r t)
  | _ => []

/-- `sanctifyTransIdx`, up to its loop; an exception ends the call. -/
def ask (q : Question) (idx : Int32) : Application :=
  let transactions := a.system.client.transactions
  if transactions = [] then a
  else if idx = -1 then a.goto (.scanning q transactions.reverse)
  else if idx < 0 then a
  else
    match transactions[idx.toNatClampNeg]? with
    | some r => a.goto (.found q r)
    | none => a

def questionStep : ApplicationLabel → Option Application
  | .ask q idx => if a.question = .none then some (a.ask q idx) else none
  | .scan =>
    match a.question with
    | .scanning q (r :: left) => (a.system.client.heap r).map fun t =>
      a.goto (if t.status = .TRANSACTION_DONE then .found q r else .scanning q left)
    | .scanning _ [] => some (a.goto .none)
    | _ => none
  | .check =>
    match a.question with
    | .found q r => (a.system.client.heap r).map fun t =>
      a.goto (if t.status = .TRANSACTION_DONE then .reading r (q.entries t) else .none)
    | _ => none
  | .lookup =>
    match a.question with
    | .reading r (idx :: entries) => (a.system.client.heap r).map fun t =>
      (a.setTrans r (t.perfEntry idx).2).goto (.reading r entries)
    | .reading _ [] => some (a.goto .none)
    | _ => none
  | _ => none

/-- A statement of client or server. The main thread makes no other call while it asks. -/
def systemStep (l : SystemLabel) : Option Application :=
  if l.isCall ∧ a.question ≠ .none then none
  else (System.lts.step l a.system).map fun system =>
    { a with system, log := a.log ++ delivered a.system system l }

def lts : Lts Application ApplicationLabel where
  step l a :=
    match l with
    | .system l => a.systemStep l
    | l => if a.system.client.main = .idle then a.questionStep l else none

end Application

end AieTestHarness
