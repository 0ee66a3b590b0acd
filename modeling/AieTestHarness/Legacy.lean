import AieTestHarness.Lib.Lts
import AieTestHarness.Server.FastXM

/-!
# The legacy manager

`test_harness_mgr` holds one transaction at a time and runs it on the board itself. A step is one of
its calls, or one of the device between them.
-/

namespace AieTestHarness

/-- `class test_harness_mgr`. A transaction is known by the number of those created before it, so
that a pointer into one that is gone is no pointer into another. -/
structure HarnessMgr where
  setup : Setup
  fastObj : FastXM
  trans : Option (Addr × Transaction)
  created : Nat
  graph_started : Bool

inductive HarnessLabel where
  | runTestHarness (umode : UInt8) (args : List TestHarnessArgs)
  | runAIEGraph
  /-- `res` is what `waitForTestHarness` returns. -/
  | waitForRes (res : Bool)
  | complete (r : Nat)
  | write (r : Nat) (perf : List Nat) (from_aie : List UInt8)

namespace HarnessMgr

def new (setup : Setup) : HarnessMgr where
  setup
  fastObj := .new
  trans := none
  created := 0
  graph_started := false

variable (m : HarnessMgr)

def Running : Prop := ∃ p ∈ m.trans, p.2.status = .TRANSACTION_RUNNING

instance : Decidable m.Running := inferInstanceAs (Decidable (∃ p ∈ m.trans, _))

/-- `runTestHarness`. An exception in `handleInputs` leaves the new transaction behind. -/
def runTestHarness (umode : UInt8) (args : List TestHarnessArgs) : HarnessMgr :=
  match TestMode.ofNat? umode.toNat with
  | none => m
  | some mode =>
    if m.Running then m
    else
      let t := Transaction.new 0 mode m.setup.num_channels m.setup.word_size m.setup.depth
        m.setup.memWidth 0
      match t.handleInputs args with
      | .error _ => { m with trans := some (m.created, t), created := m.created + 1 }
      | .ok t =>
        { m with
          trans := some (m.created, { t with status := .TRANSACTION_RUNNING })
          created := m.created + 1
          fastObj := m.fastObj.runPL m.created t }

def runAIEGraph : HarnessMgr := { m with graph_started := true }

def fetchRes (a : Addr) (t : Transaction) : Transaction :=
  (m.fastObj.readAll (fun b => if b = a then some t else none) a).getD t

/-- `waitForRes`; without a transaction that runs it throws. -/
def waitForRes (res : Bool) : Option HarnessMgr :=
  match m.trans with
  | none => some m
  | some (a, t) =>
    if t.status = .TRANSACTION_RUNNING then
      match res with
      | true =>
        if m.fastObj.AllDone then
          match (m.fetchRes a t).handleOutputs with
          | .ok t =>
            some { m with
              trans := some (a, { t with status := .TRANSACTION_DONE })
              fastObj := m.fastObj.clear
              graph_started := false }
          | .error _ => none
        else none
      | false =>
        some { m with
          trans := some (a, { t with status := .TRANSACTION_TIMEOUT })
          graph_started := false }
    else some m

def lts : Lts HarnessMgr HarnessLabel where
  step l m :=
    match l with
    | .runTestHarness umode args => some (m.runTestHarness umode args)
    | .runAIEGraph => some m.runAIEGraph
    | .waitForRes res => m.waitForRes res
    | .complete r =>
      if m.fastObj.runs r = .live then some { m with fastObj := m.fastObj.complete r } else none
    | .write r perf from_aie =>
      if m.fastObj.runs r = .live ∧ perf.length = (m.fastObj.mem r).perf.length
          ∧ from_aie.length = (m.fastObj.mem r).from_aie.length then
        some { m with fastObj := m.fastObj.write r perf from_aie }
      else none

end HarnessMgr

end AieTestHarness
