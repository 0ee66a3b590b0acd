import AieTestHarness.Kernel.MemLoop
import AieTestHarness.Lib.Lts

/-!
# Functional mode from the AIE

The AIE writes stream words to the AXI stream of a channel, `get` packs them into memory words and
writes these to the FIFO of the channel, `store_memories` takes them out and writes them to memory.
-/

namespace AieTestHarness

open Slices

inductive GetPc where
  /-- Counting the delay down. -/
  | wait (count : Nat)
  | head (i : Nat)
  | word (i : Nat) (data : MemWord) (j : Nat)
  | put (i : Nat) (data : MemWord)
  /-- Packing what is left into the last word. -/
  | rest (data : MemWord) (j : Nat)
  | putRest (data : MemWord)
  | done
  deriving DecidableEq

/-- One statement of `get` in functional mode: where it stands next, the AXI stream, and what it
writes to the memory FIFO when that has `room`. A read from an empty stream and a write to a full
FIFO block. -/
def getStep (p : Kernel) (ch : Channel) (room : Bool) (strm : List Beat) :
    GetPc → Option (GetPc × List Beat × List MemWord)
  | .wait (count + 1) => some (.wait count, strm, [])
  | .wait 0 => some (.head 0, strm, [])
  | .head i =>
    if i < ch.numFrames / p.memRatio then some (.word i p.zeroWord 0, strm, [])
    else if ch.numFrames % p.memRatio ≠ 0 then some (.rest p.zeroWord 0, strm, [])
    else some (.done, strm, [])
  | .word i data j =>
    if j < p.memRatio then
      match strm with
      | [] => none
      | tmp :: strm => some (.word i (p.setRange data j tmp) (j + 1), strm, [])
    else some (.put i data, strm, [])
  | .put i data => if room then some (.head (i + 1), strm, [data]) else none
  | .rest data j =>
    -- `j` is an `ap_uint<5>`
    if j < ch.numFrames % p.memRatio then
      match strm with
      | [] => none
      | tmp :: strm => some (.rest (p.setRange data j tmp) ((j + 1) % 2 ^ 5), strm, [])
    else some (.putRest data, strm, [])
  | .putRest data => if room then some (.done, strm, [data]) else none
  | .done => none

def GetPc.AtPut : GetPc → Prop
  | .put _ _ => True
  | .putRest _ => True
  | _ => False

structure RxIO where
  from_aie_strm : Nat → List MemWord
  mem : List UInt8
  writes : List (Nat × Nat)
  empty : Nat

/-- A run of the functional mode from the AIE: what it is given. -/
structure Receive where
  p : Kernel
  burst_len : Nat
  chs : Channels
  mem : List UInt8
  beats : Nat → List Beat
  /-- Stream words that fit on the AXI stream of a channel. -/
  axiDepth : Nat → Nat
  axi_pos : ∀ c, 0 < axiDepth c

structure RxState where
  store : MemProc
  io : RxIO
  get : Nat → GetPc
  axi : Nat → List Beat
  todo : Nat → List Beat

/-- `store` and `get c` are statements of the processes, `aie c` the AIE writing a stream word. -/
inductive RxLabel where
  | store
  | get (c : Nat)
  | aie (c : Nat)
  deriving DecidableEq

namespace Receive

variable (T : Receive)

/-- `capacity()`, from `#pragma HLS stream depth = BURST_LEN * 2`. -/
def capacity : Nat := T.burst_len * 2

/-- `read_nb(tmp); mem[k] = tmp`. On an empty FIFO `tmp` is what its constructor left. -/
def moveWord (x : RxIO) (ch_id k : Nat) : RxIO :=
  match x.from_aie_strm ch_id with
  | [] =>
    { x with
      mem := overwrite x.mem (k * T.p.memWidth) T.p.zeroWord
      writes := (ch_id, k) :: x.writes
      empty := x.empty + 1 }
  | tmp :: rest =>
    { x with
      from_aie_strm := Function.update x.from_aie_strm ch_id rest
      mem := overwrite x.mem (k * T.p.memWidth) tmp
      writes := (ch_id, k) :: x.writes }

def storeMemories : MemLoop RxIO where
  p := T.p
  burst_len := T.burst_len
  chs := T.chs.from_aie_ch
  burstReady x ch_id := T.burst_len ≤ (x.from_aie_strm ch_id).length
  resReady x ch_id numData := (x.from_aie_strm ch_id).length = numData
  move := T.moveWord

def init : RxState where
  store := T.storeMemories.start
  io := ⟨fun _ => [], T.mem, [], 0⟩
  get c := .wait (T.chs.from_aie_ch c).delays
  axi _ := []
  todo := T.beats

def getChannel (s : RxState) (c : Nat) : Option RxState :=
  (getStep T.p (T.chs.from_aie_ch c) ((s.io.from_aie_strm c).length < T.capacity) (s.axi c)
      (s.get c)).map fun (pc, strm, out) =>
    { s with
      io := { s.io with
        from_aie_strm := Function.update s.io.from_aie_strm c (s.io.from_aie_strm c ++ out) }
      get := Function.update s.get c pc
      axi := Function.update s.axi c strm }

def deliver (s : RxState) (c : Nat) : Option RxState :=
  match s.todo c with
  | [] => none
  | b :: rest =>
    if (s.axi c).length < T.axiDepth c then
      some { s with
        axi := Function.update s.axi c (s.axi c ++ [b])
        todo := Function.update s.todo c rest }
    else none

def lts : Lts RxState RxLabel where
  step
    | .store, s => (T.storeMemories.step s.store s.io).map fun (store, io) => { s with store, io }
    | .get c, s => if c < T.p.num_channels then T.getChannel s c else none
    | .aie c, s => if c < T.p.num_channels then T.deliver s c else none

/-- `get` does not complete the FIFO to all of 256 words or more that are left while
`store_memories` stands between its two tests. -/
def NoWrap : RxLabel → RxState → Prop
  | .get c, s => ∀ numData, s.store.pc = .resTest c numData → 2 ^ 8 ≤ numData → (s.get c).AtPut →
    (s.io.from_aie_strm c).length + 1 ≠ numData
  | _, _ => True

def Complete (s : RxState) : Prop :=
  s.store.pc = .done ∧ ∀ c < T.p.num_channels, s.get c = .done

end Receive

end AieTestHarness
