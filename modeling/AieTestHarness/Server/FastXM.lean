import AieTestHarness.Transaction

/-!
# The device manager

`fastXM` keeps the buffers and the runs of the PL kernel: `runPL` allocates the buffers of a run and
starts it, `waitForTestHarness` waits for all runs it has handles of, `fetchRes` copies the buffers
back to where they came from, and `resetTestHarness` stops whatever runs. The kernel is the only one
the server starts, so the tables indexed by kernels have one row.
-/

namespace AieTestHarness

abbrev Addr := Nat

inductive PlArg where
  | cfg
  | perf
  | toAie
  | fromAie
  deriving DecidableEq, Repr

structure PlBuffers where
  cfg : List Nat
  perf : List Nat
  to_aie : List UInt8
  from_aie : List UInt8

/-- The vectors of a transaction the kernel arguments point to. -/
def Transaction.buffers (t : Transaction) : PlBuffers :=
  ⟨t.cfg_ptr, t.perf_ptr, t.to_aie_ptr, t.from_aie_ptr⟩

/-- `bo.read(ptr)`: one buffer overwrites the vector it came from. -/
def Transaction.readBack (t : Transaction) (b : PlBuffers) : PlArg → Transaction
  | .cfg => { t with cfg_ptr := b.cfg }
  | .perf => { t with perf_ptr := b.perf }
  | .toAie => { t with to_aie_ptr := b.to_aie }
  | .fromAie => { t with from_aie_ptr := b.from_aie }

/-- The arguments that get a buffer: those that are not empty. -/
def PlBuffers.nonempty (b : PlBuffers) : List PlArg :=
  (if b.cfg = [] then [] else [.cfg]) ++ (if b.perf = [] then [] else [.perf])
    ++ (if b.to_aie = [] then [] else [.toAie]) ++ (if b.from_aie = [] then [] else [.fromAie])

inductive RunState where
  | live
  | completed
  | aborted
  deriving DecidableEq, Repr

structure FastXM where
  bo_hdl : List (Nat × PlArg)
  /-- Each pointer by its transaction and the vector in it. -/
  bo_src_ptr : List (Addr × PlArg)
  pl_k_r_hdl : List Nat
  /-- Runs are numbered as they are started. -/
  started : Nat
  runs : Nat → RunState
  mem : Nat → PlBuffers

namespace FastXM

def resetTestHarness (f : FastXM) : FastXM :=
  { f with
    pl_k_r_hdl := []
    bo_hdl := []
    bo_src_ptr := []
    runs := fun r => if f.runs r = .live then .aborted else f.runs r }

def new : FastXM :=
  resetTestHarness
    { bo_hdl := [], bo_src_ptr := [], pl_k_r_hdl := [], started := 0, runs := fun _ => .aborted,
      mem := fun _ => ⟨[], [], [], []⟩ }

def runPL (f : FastXM) (a : Addr) (t : Transaction) : FastXM where
  bo_hdl := f.bo_hdl ++ t.buffers.nonempty.map (f.started, ·)
  bo_src_ptr := f.bo_src_ptr ++ t.buffers.nonempty.map (a, ·)
  pl_k_r_hdl := f.pl_k_r_hdl ++ [f.started]
  started := f.started + 1
  runs := Function.update f.runs f.started .live
  mem := Function.update f.mem f.started t.buffers

/-- `waitForTestHarness` may return true: no `wait2` times out. -/
def AllDone (f : FastXM) : Prop := ∀ r ∈ f.pl_k_r_hdl, f.runs r ≠ .live

instance (f : FastXM) : Decidable f.AllDone := inferInstanceAs (Decidable (∀ r ∈ _, _))

/-- `fetchRes` on the transactions. -/
def readAll (f : FastXM) (heap : Addr → Option Transaction) : Addr → Option Transaction :=
  (f.bo_hdl.zip f.bo_src_ptr).foldl (fun heap (bo, src) =>
    Function.update heap src.1 ((heap src.1).map fun t => t.readBack (f.mem bo.1) src.2)) heap

/-- `fetchRes` on the tables. -/
def clear (f : FastXM) : FastXM := { f with bo_hdl := [], bo_src_ptr := [] }

def complete (f : FastXM) (r : Nat) : FastXM :=
  { f with runs := Function.update f.runs r .completed }

/-- A run writes its counters and its output; a buffer keeps its size. -/
def write (f : FastXM) (r : Nat) (perf : List Nat) (from_aie : List UInt8) : FastXM :=
  { f with mem := Function.update f.mem r { f.mem r with perf, from_aie } }

end FastXM

end AieTestHarness
