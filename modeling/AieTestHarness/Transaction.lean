import AieTestHarness.Machine

/-!
# Transactions

The host side of one run of the test harness, `test_harness_transaction.hpp`: the user's arguments
are checked and laid out into the configuration words and the memory the PL reads (`handleInputs`),
and the memory the PL wrote is copied back into the user's buffers (`handleOutputs`).
-/

namespace AieTestHarness

open Slices

inductive TestMode where
  | FUNC_MODE
  | PERF_MODE
  deriving DecidableEq, Repr

def TestMode.toNat : TestMode → Nat
  | .FUNC_MODE => 0
  | .PERF_MODE => 1

/-- `static_cast<TestMode>` followed by the check that the mode is one of the two. -/
def TestMode.ofNat? : Nat → Option TestMode
  | 0 => some .FUNC_MODE
  | 1 => some .PERF_MODE
  | _ => none

/-- `enum channel_index : uint16_t`: 36 channels to the AIE, then 36 from it. -/
def PLIO_01_TO_AIE : Nat := 0

def PLIO_01_FROM_AIE : Nat := 36

inductive TransactionStatus where
  | TRANSACTION_CREATED
  | TRANSACTION_READY
  | TRANSACTION_RUNNING
  | TRANSACTION_TIMEOUT
  | TRANSACTION_DONE
  deriving DecidableEq, Repr

/-- What `data` points to: an allocation of the user's. No 64-bit host hands out one of `2 ^ 57`
bytes. -/
structure HostBuffer where
  bytes : List UInt8
  length_lt : bytes.length < 2 ^ 57

structure TestHarnessArgs where
  idx : UInt16
  size_in_byte : UInt64
  repetition : UInt64
  delay : UInt64
  data : HostBuffer

/-- What `setup` stores: channels in each direction, and in bytes the width of a stream, the number
of stream words a channel buffers, and the width of a memory word. -/
structure Setup where
  num_channels : Nat
  word_size : Nat
  depth : Nat
  memWidth : Nat
  deriving DecidableEq, Repr

namespace TestHarnessArgs

def size (a : TestHarnessArgs) : Nat := a.size_in_byte.toNat

def IsTo (p : Setup) (a : TestHarnessArgs) : Prop :=
  PLIO_01_TO_AIE ≤ a.idx.toNat ∧ a.idx.toNat < u32 (PLIO_01_TO_AIE + p.num_channels)

def IsFrom (p : Setup) (a : TestHarnessArgs) : Prop :=
  PLIO_01_FROM_AIE ≤ a.idx.toNat ∧ a.idx.toNat < u32 (PLIO_01_FROM_AIE + p.num_channels)

instance (p : Setup) (a : TestHarnessArgs) : Decidable (a.IsTo p) :=
  inferInstanceAs (Decidable (_ ∧ _))

instance (p : Setup) (a : TestHarnessArgs) : Decidable (a.IsFrom p) :=
  inferInstanceAs (Decidable (_ ∧ _))

def toChn (a : TestHarnessArgs) : Nat := a.idx.toNat - PLIO_01_TO_AIE

def fromChn (a : TestHarnessArgs) : Nat := a.idx.toNat - PLIO_01_FROM_AIE

/-- `(size_in_byte + mMemWidth - 1) / mMemWidth`, the memory words the data takes. -/
def memWords (p : Setup) (a : TestHarnessArgs) : Nat :=
  u64 (a.size + p.memWidth - 1) / p.memWidth

end TestHarnessArgs

/-- `class test_harness_transactions`. -/
structure Transaction where
  trans_id : Nat
  mode : TestMode
  setup : Setup
  cfg_ptr : List Nat
  perf_ptr : List Nat
  to_aie_ptr : List UInt8
  from_aie_ptr : List UInt8
  status : TransactionStatus
  from_mem_word_offset : List Nat
  args_rec : List TestHarnessArgs
  perf_map : Nat → Option (Nat × Nat)
  result_valid : Bool
  mTimeOut : Nat

namespace Transaction

def clearData (t : Transaction) : Transaction :=
  { t with to_aie_ptr := [], from_aie_ptr := [], from_mem_word_offset := [], cfg_ptr := [],
           perf_ptr := [] }

/-- `reset()`: empty buffers, zeroed tables sized for the channels, no timeout. -/
def reset (t : Transaction) : Transaction :=
  { t.clearData with
    mTimeOut := 0
    args_rec := []
    cfg_ptr := List.replicate (u32 (t.setup.num_channels * 2 * 4 + 1)) 0
    perf_ptr := List.replicate (u32 (t.setup.num_channels * 4)) 0
    from_mem_word_offset := List.replicate t.setup.num_channels 0
    status := .TRANSACTION_CREATED
    result_valid := true }

/-- The constructor. Its body is `reset()`, so the timeout it is given is lost again. -/
def new (trans_id : Nat) (mode : TestMode) (num_channels word_size depth memWidth : Nat)
    (timeout : Nat) : Transaction :=
  reset
    { trans_id, mode, setup := ⟨num_channels, word_size, depth, memWidth⟩, cfg_ptr := [],
      perf_ptr := [], to_aie_ptr := [], from_aie_ptr := [], status := .TRANSACTION_CREATED,
      from_mem_word_offset := [], args_rec := [], perf_map := fun _ => none, result_valid := true,
      mTimeOut := timeout }

/-- The bytes of the four buffers, in `size_t`. -/
def getMemoryUsage (t : Transaction) : Nat :=
  u64 (t.cfg_ptr.length * 8 + t.perf_ptr.length * 8 + t.to_aie_ptr.length + t.from_aie_ptr.length)

def checkArgument (p : Setup) (a : TestHarnessArgs) : Except Exn Unit :=
  if a.IsTo p ∨ a.IsFrom p then
    if a.size % p.word_size ≠ 0 then
      .error (.testHarness .INVALID_ARGUMENTS
        "The size of the data should be multiple of the word size.")
    else .ok ()
  else
    .error (.testHarness .INVALID_ARGUMENTS "Wrong channel index is used in the test harness.")

/-- `check_arguments`: every argument is checked, and recorded when it passes. -/
def checkArguments (t : Transaction) (args : List TestHarnessArgs) : Except Exn Transaction :=
  args.foldlM (fun t a => do
    checkArgument t.setup a
    return { t with args_rec := t.args_rec ++ [a] }) t

/-- The index of the `k`-th entry of a channel in block `bias` of the configuration. -/
def cfgIndex (p : Setup) (bias k chn : Nat) : Nat :=
  u32 (1 + p.num_channels * bias + k * p.num_channels + chn)

def writeCfg (p : Setup) (cfg : List Nat) (bias chn : Nat) (a : TestHarnessArgs) (offset : Nat) :
    Except Exn (List Nat) := do
  let cfg ← setAt cfg (cfgIndex p bias 0 chn) a.delay.toNat
  let cfg ← setAt cfg (cfgIndex p bias 1 chn) (a.size / p.word_size)
  let cfg ← setAt cfg (cfgIndex p bias 2 chn) a.repetition.toNat
  setAt cfg (cfgIndex p bias 3 chn) offset

/-! ### Functional mode -/

/-- The first loop: the bytes to reserve in each direction. -/
def funcTotals (p : Setup) (args : List TestHarnessArgs) : Except Exn (Nat × Nat) :=
  args.foldlM (fun (total_to_byte, total_from_byte) a => do
    let bytes := u64 (a.memWords p * p.memWidth)
    let totals :=
      if a.IsTo p then (u64 (total_to_byte + bytes), total_from_byte)
      else if a.IsFrom p then (total_to_byte, u64 (total_from_byte + bytes))
      else (total_to_byte, total_from_byte)
    if a.repetition.toNat ≠ 1 then
      throw (.testHarness .INVALID_ARGUMENTS
        "repetition is not supported for the function mode in the test harness.")
    return totals) (0, 0)

/-- What the second loop works on: the transaction and the next free memory word each way. -/
structure FuncLoop where
  trans : Transaction
  to_mem_word_offt : Nat
  from_mem_word_offt : Nat

/-- One pass of the second loop. The final branch is an `assert` of a string literal, which never
fails. -/
def funcArgument (p : Setup) (s : FuncLoop) (a : TestHarnessArgs) : Except Exn FuncLoop := do
  if a.IsTo p then
    let cfg_ptr ← writeCfg p s.trans.cfg_ptr 0 a.toChn a s.to_mem_word_offt
    let to_aie_ptr ← memcpy s.trans.to_aie_ptr (u64 (s.to_mem_word_offt * p.memWidth))
      a.data.bytes 0 a.size
    return { s with
      trans := { s.trans with cfg_ptr, to_aie_ptr }
      to_mem_word_offt := u64 (s.to_mem_word_offt + a.memWords p) }
  else if a.IsFrom p then
    let cfg_ptr ← writeCfg p s.trans.cfg_ptr 4 a.fromChn a s.from_mem_word_offt
    let from_mem_word_offset ← setAt s.trans.from_mem_word_offset a.fromChn
      (u32 s.from_mem_word_offt)
    return { s with
      trans := { s.trans with cfg_ptr, from_mem_word_offset }
      from_mem_word_offt := u64 (s.from_mem_word_offt + a.memWords p) }
  else
    return s

def handleFuncInputs (t : Transaction) : Except Exn Transaction := do
  let (total_to_byte, total_from_byte) ← funcTotals t.setup t.args_rec
  let to_aie_ptr ← resize total_to_byte
  let from_aie_ptr ← resize total_from_byte
  let s ← t.args_rec.foldlM (funcArgument t.setup)
    ⟨{ t with result_valid := true, to_aie_ptr, from_aie_ptr }, 0, 0⟩
  return s.trans

/-! ### Performance mode -/

def buffBytes (p : Setup) : Nat := u32 (p.word_size * p.depth)

/-- `word_size * depth / mMemWidth * chn`, where the region of a channel begins. -/
def perfOffset (p : Setup) (chn : Nat) : Nat := u32 (buffBytes p / p.memWidth * chn)

def perfArgument (p : Setup) (t : Transaction) (a : TestHarnessArgs) : Except Exn Transaction := do
  if a.IsTo p then
    let offsets := perfOffset p a.toChn
    let result_valid := if a.size > buffBytes p then false else t.result_valid
    let to_aie_ptr ← memcpy t.to_aie_ptr (u32 (offsets * p.memWidth)) a.data.bytes 0
      (if a.size > buffBytes p then buffBytes p else a.size)
    let cfg_ptr ← writeCfg p t.cfg_ptr 0 a.toChn a offsets
    return { t with result_valid, to_aie_ptr, cfg_ptr }
  else if a.IsFrom p then
    let offsets := perfOffset p a.fromChn
    let cfg_ptr ← writeCfg p t.cfg_ptr 4 a.fromChn a offsets
    let from_mem_word_offset ← setAt t.from_mem_word_offset a.fromChn offsets
    return { t with cfg_ptr, from_mem_word_offset }
  else
    return t

def handlePerfInputs (t : Transaction) : Except Exn Transaction := do
  let p := t.setup
  if ¬ p.memWidth % p.word_size = 0 then throw .assertion
  if ¬ buffBytes p % p.memWidth = 0 then throw .assertion
  let to_aie_ptr ← resize (u32 (u32 (p.num_channels * p.word_size) * p.depth))
  let from_aie_ptr ← resize (u32 (u32 (p.num_channels * p.word_size) * p.depth))
  t.args_rec.foldlM (perfArgument p) { t with to_aie_ptr, from_aie_ptr }

/-- The part of `handleInputs` that depends on the mode. -/
def handleModeInputs (t : Transaction) : Except Exn Transaction :=
  match t.mode with
  | .FUNC_MODE => t.handleFuncInputs
  | .PERF_MODE => t.handlePerfInputs

def handleInputs (t : Transaction) (args : List TestHarnessArgs) : Except Exn Transaction := do
  let t ← t.reset.checkArguments args
  let cfg_ptr ← setAt t.cfg_ptr 0 t.mode.toNat
  let t ← { t with cfg_ptr }.handleModeInputs
  return { t with status := .TRANSACTION_READY }

/-! ### Outputs -/

/-- The bytes copied back for an argument: in performance mode no more than a channel buffers. -/
def outputBytes (p : Setup) (mode : TestMode) (a : TestHarnessArgs) : Nat :=
  match mode with
  | .FUNC_MODE => a.size
  | .PERF_MODE => if a.size > buffBytes p then buffBytes p else a.size

theorem length_overwrite_lt {b : HostBuffer} {src : List UInt8}
    (h : src.length ≤ b.bytes.length) : (overwrite b.bytes 0 src).length < 2 ^ 57 := by
  rw [length_overwrite (by omega)]
  exact b.length_lt

def copyOut (b : HostBuffer) (src : List UInt8) (pos n : Nat) : Except Exn HostBuffer :=
  if h : pos + n ≤ src.length ∧ n ≤ b.bytes.length then
    .ok ⟨overwrite b.bytes 0 (slice pos n src),
      length_overwrite_lt (by rw [length_slice h.1]; exact h.2)⟩
  else .error .undefined

/-- The counters of a channel, from blocks `k` and `k + 1` of `perf_ptr`. -/
def readPerf (p : Setup) (perf : List Nat) (k chn : Nat) : Except Exn (Nat × Nat) := do
  let first ← getAt perf (u32 (chn + k * p.num_channels))
  let last ← getAt perf (u32 (chn + (k + 1) * p.num_channels))
  return (first, last)

def outputTo (t : Transaction) :
    TestHarnessArgs × (Nat → Option (Nat × Nat)) →
      Except Exn (TestHarnessArgs × (Nat → Option (Nat × Nat)))
  | (a, perf_map) =>
    if a.IsTo t.setup then do
      let counters ← readPerf t.setup t.perf_ptr 0 a.toChn
      return (a, Function.update perf_map a.idx.toNat (some counters))
    else return (a, perf_map)

def outputFrom (t : Transaction) :
    TestHarnessArgs × (Nat → Option (Nat × Nat)) →
      Except Exn (TestHarnessArgs × (Nat → Option (Nat × Nat)))
  | (a, perf_map) =>
    if a.IsFrom t.setup then do
      let offset ← getAt t.from_mem_word_offset a.fromChn
      let data ← copyOut a.data t.from_aie_ptr (u32 (offset * t.setup.memWidth))
        (outputBytes t.setup t.mode a)
      let counters ← readPerf t.setup t.perf_ptr 2 a.fromChn
      return ({ a with data }, Function.update perf_map a.idx.toNat (some counters))
    else return (a, perf_map)

/-- One pass of the loop of `handleOutputs`: the argument with its buffer after the copy, and the
performance map. The two modes take the two blocks in opposite orders. -/
def outputArgument (t : Transaction) (perf_map : Nat → Option (Nat × Nat)) (a : TestHarnessArgs) :
    Except Exn (TestHarnessArgs × (Nat → Option (Nat × Nat))) :=
  match t.mode with
  | .FUNC_MODE => t.outputTo (a, perf_map) >>= t.outputFrom
  | .PERF_MODE => t.outputFrom (a, perf_map) >>= t.outputTo

/-- `handleOutputs`: the user's buffers are those of the arguments it returns with. -/
def handleOutputs (t : Transaction) : Except Exn Transaction := do
  let (args_rec, perf_map) ← t.args_rec.foldlM (fun (done, perf_map) a => do
    let (a, perf_map) ← outputArgument t perf_map a
    return (done ++ [a], perf_map)) (([] : List TestHarnessArgs), t.perf_map)
  return { t with args_rec, perf_map }.clearData

def isResultValid (t : Transaction) : Bool :=
  match t.status with
  | .TRANSACTION_TIMEOUT => false
  | .TRANSACTION_DONE => t.result_valid
  | _ => false

/-- `perf_map[idx]`, which enters what is missing. -/
def perfEntry (t : Transaction) (idx : UInt16) : (Nat × Nat) × Transaction :=
  match t.perf_map idx.toNat with
  | some entry => (entry, t)
  | none =>
    ((0, 0), { t with perf_map := Function.update t.perf_map idx.toNat (some (0, 0)) })

def WrongChannels (p : Setup) (id id' : UInt16) : Prop :=
  id.toNat < PLIO_01_TO_AIE ∨ u32 (PLIO_01_FROM_AIE + p.num_channels) ≤ id.toNat
    ∨ (u32 (PLIO_01_TO_AIE + p.num_channels) ≤ id'.toNat ∧ id'.toNat < PLIO_01_FROM_AIE)

instance (p : Setup) (id id' : UInt16) : Decidable (WrongChannels p id id') :=
  inferInstanceAs (Decidable (_ ∨ _))

/-- `getDelayBwtween`: the delay, and the transaction with the entries that were looked up. -/
def getDelayBwtween (t : Transaction) (id_from id_to : UInt16) :
    Except Exn (Int64 × Transaction) :=
  if t.status = .TRANSACTION_DONE then
    if WrongChannels t.setup id_from id_to then
      .error (.testHarness .INVALID_ARGUMENTS "Wrong channel index is used.")
    else if WrongChannels t.setup id_to id_from then
      .error (.testHarness .INVALID_ARGUMENTS "Wrong channel index is used.")
    else
      let (entry_to, t) := t.perfEntry id_to
      let (entry_from, t) := t.perfEntry id_from
      .ok ((UInt64.ofNat entry_to.1 - UInt64.ofNat entry_from.1).toInt64, t)
  else .error (.testHarness .INVALID_ARGUMENTS "The transaction is not finished yet.")

end Transaction

end AieTestHarness
