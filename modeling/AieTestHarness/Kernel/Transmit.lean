import AieTestHarness.Kernel.MemLoop
import AieTestHarness.Lib.Lts

/-!
# Functional mode towards the AIE

`load_memories` moves memory words into one FIFO a channel, `feed` takes them out, cuts them into
stream words and writes these to the AXI stream of its channel, and the AIE takes them from there.
The processes run side by side; a run interleaves their statements.
-/

namespace AieTestHarness

inductive FeedPc where
  | wait (count : Nat)
  | head (i : Nat)
  | word (i : Nat) (data : MemWord) (j : Nat)
  | rest (data : MemWord) (j : Nat)
  | done
  deriving DecidableEq

/-- One statement of `feed` in functional mode: where it stands next, the memory FIFO, and what it
writes to the AXI stream when that has `room`. A read from an empty FIFO blocks. -/
def feedStep (p : Kernel) (ch : Channel) (room : Bool) (memStr : List MemWord) :
    FeedPc → Option (FeedPc × List MemWord × List Beat)
  | .wait (count + 1) => some (.wait count, memStr, [])
  | .wait 0 => some (.head 0, memStr, [])
  | .head i =>
    if i < ch.numFrames / p.memRatio then
      match memStr with
      | [] => none
      | data :: memStr => some (.word i data 0, memStr, [])
    else if ch.numFrames % p.memRatio ≠ 0 then
      match memStr with
      | [] => none
      | data :: memStr => some (.rest data 0, memStr, [])
    else some (.done, memStr, [])
  | .word i data j =>
    if j < p.memRatio then
      if room then some (.word i data (j + 1), memStr, [p.range data j]) else none
    else some (.head (i + 1), memStr, [])
  | .rest data j =>
    -- `j` is an `ap_uint<5>`
    if j < ch.numFrames % p.memRatio then
      if room then some (.rest data ((j + 1) % 2 ^ 5), memStr, [p.range data j]) else none
    else some (.done, memStr, [])
  | .done => none

structure TxIO where
  to_aie_strm : Nat → List MemWord
  reads : List Nat
  lost : Nat

/-- A run of the functional mode towards the AIE: what it is given. -/
structure Transmit where
  p : Kernel
  burst_len : Nat
  chs : Channels
  mem : List UInt8
  axiDepth : Nat → Nat

structure TxState where
  load : MemProc
  io : TxIO
  feed : Nat → FeedPc
  axi : Nat → List Beat
  sent : Nat → List Beat

/-- `load` and `feed c` are statements of the processes, `aie c` the AIE taking a stream word. -/
inductive TxLabel where
  | load
  | feed (c : Nat)
  | aie (c : Nat)
  deriving DecidableEq

namespace Transmit

variable (T : Transmit)

/-- `capacity()`, from `#pragma HLS stream depth = BURST_LEN * 2`. -/
def capacity : Nat := T.burst_len * 2

def writeNb (x : TxIO) (ch_id : Nat) (tmp : MemWord) : TxIO :=
  if (x.to_aie_strm ch_id).length < T.capacity then
    { x with to_aie_strm := Function.update x.to_aie_strm ch_id (x.to_aie_strm ch_id ++ [tmp]) }
  else { x with lost := x.lost + 1 }

def loadMemories : MemLoop TxIO where
  p := T.p
  burst_len := T.burst_len
  chs := T.chs.to_aie_ch
  burstReady x ch_id := (x.to_aie_strm ch_id).length + T.burst_len ≤ T.capacity
  resReady x ch_id numData := (x.to_aie_strm ch_id).length + numData ≤ T.capacity
  move x ch_id k := T.writeNb { x with reads := k :: x.reads } ch_id (T.p.readWord T.mem k)

def init : TxState where
  load := T.loadMemories.start
  io := ⟨fun _ => [], [], 0⟩
  feed c := .wait (T.chs.to_aie_ch c).delays
  axi _ := []
  sent _ := []

def feedChannel (s : TxState) (c : Nat) : Option TxState :=
  (feedStep T.p (T.chs.to_aie_ch c) ((s.axi c).length < T.axiDepth c) (s.io.to_aie_strm c)
      (s.feed c)).map fun (pc, memStr, out) =>
    { s with
      io := { s.io with to_aie_strm := Function.update s.io.to_aie_strm c memStr }
      feed := Function.update s.feed c pc
      axi := Function.update s.axi c (s.axi c ++ out)
      sent := Function.update s.sent c (s.sent c ++ out) }

def lts : Lts TxState TxLabel where
  step
    | .load, s => (T.loadMemories.step s.load s.io).map fun (load, io) => { s with load, io }
    | .feed c, s => if c < T.p.num_channels then T.feedChannel s c else none
    | .aie c, s =>
      match s.axi c with
      | [] => none
      | _ :: rest => some { s with axi := Function.update s.axi c rest }

/-- `load_memories` does not enter its last loop with more words than the loop can count. -/
def NoWrap : TxLabel → TxState → Prop
  | .load, s => ¬ T.loadMemories.Wraps s.load s.io
  | _, _ => True

end Transmit

end AieTestHarness
