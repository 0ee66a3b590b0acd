import AieTestHarness.Transaction

/-!
# Channels of the PL kernel

`test_harness.hpp` for one channel: how `load_cfg` reads its configuration, how a memory word splits
into stream words, and the performance mode, in which a channel plays from or records into its own
URAM buffer.

A stream word is a list of `word_size` bytes and a memory word a list of `memWidth` bytes, least
significant first, as the AXI interface lays an `ap_uint` out in memory.
-/

namespace AieTestHarness

open Slices

/-- Template arguments the kernel can be instantiated at: the `static_assert`s hold,
`buff[URAM_DEPTH]` is an array, and widths are `unsigned int`s. -/
structure Kernel extends Setup where
  word_pos : 0 < word_size
  memWidth_pos : 0 < memWidth
  memWidth_lt : memWidth < 2 ^ 32
  stream_dvd : word_size ∣ memWidth
  ratio_le : memWidth / word_size ≤ 16
  depth_pos : 0 < depth
  depth_dvd : memWidth / word_size ∣ depth

/-- A setup with no more channels than `channel_index` has names for. -/
structure Platform extends Kernel where
  channels_le : num_channels ≤ 36

instance : Coe Platform Kernel := ⟨Platform.toKernel⟩

/-- A word of a stream, and one of memory. -/
abbrev Beat := List UInt8

abbrev MemWord := List UInt8

namespace Kernel

/-- `MEM_RATIO`, stream words to a memory word. -/
def memRatio (p : Kernel) : Nat := p.memWidth / p.word_size

def memDepth (p : Kernel) : Nat := p.depth / p.memRatio

theorem memRatio_mul (p : Kernel) : p.memRatio * p.word_size = p.memWidth :=
  Nat.div_mul_cancel p.stream_dvd

theorem memRatio_pos (p : Kernel) : 0 < p.memRatio :=
  Nat.div_pos (Nat.le_of_dvd p.memWidth_pos p.stream_dvd) p.word_pos

theorem memDepth_mul (p : Kernel) : p.memDepth * p.memRatio = p.depth :=
  Nat.div_mul_cancel p.depth_dvd

theorem word_le_memWidth (p : Kernel) : p.word_size ≤ p.memWidth :=
  Nat.le_of_dvd p.memWidth_pos p.stream_dvd

def readWord (p : Kernel) (mem : List UInt8) (k : Nat) : MemWord :=
  slice (k * p.memWidth) p.memWidth mem

/-- `data.range((j + 1) * STREAM_WIDTH - 1, j * STREAM_WIDTH)`. -/
def range (p : Kernel) (data : MemWord) (j : Nat) : Beat :=
  slice (j * p.word_size) p.word_size data

/-- The same on the left of an assignment. -/
def setRange (p : Kernel) (data : MemWord) (j : Nat) (b : Beat) : MemWord :=
  overwrite data (j * p.word_size) b

def zeroWord (p : Kernel) : MemWord := List.replicate p.memWidth 0

end Kernel

structure Channel where
  mode : TestMode
  numFrames : Nat
  numRep : Nat
  offsets : Nat
  delays : Nat
  deriving DecidableEq, Repr

/-- The channels of a `test_harness`, indexed from 0. -/
structure Channels where
  to_aie_ch : Nat → Channel
  from_aie_ch : Nat → Channel

/-- The entry of channel `c` in block `k` of the configuration: the loops run over
`cfg[i + NUM_CHANNELS * k]` from `i = 1`. -/
def cfgEntry (p : Kernel) (cfg : List Nat) (k c : Nat) : Nat :=
  cfg.getD (c + 1 + p.num_channels * k) 0

/-- The four blocks of one direction, from block `k` on. Frames, repetitions and offsets are
narrowed to `uint32_t`. -/
def loadChannel (p : Kernel) (cfg : List Nat) (k c : Nat) : Channel where
  mode := if cfg.getD 0 0 = 0 then .FUNC_MODE else .PERF_MODE
  delays := cfgEntry p cfg k c
  numFrames := u32 (cfgEntry p cfg (k + 1) c)
  numRep := u32 (cfgEntry p cfg (k + 2) c)
  offsets := u32 (cfgEntry p cfg (k + 3) c)

def loadCfg (p : Kernel) (cfg : List Nat) : Channels where
  to_aie_ch := loadChannel p cfg 0
  from_aie_ch := loadChannel p cfg 4

/-! ### Performance mode: the URAM buffer -/

/-- Memory words `0 .. n - 1` of the channel's region, cut into the buffer. -/
def loadWords (p : Kernel) (ch : Channel) (source : List UInt8) (n : Nat) (buff : List Beat) :
    List Beat :=
  (List.range n).foldl (fun buff i =>
    fill buff (i * p.memRatio) p.memRatio
      (p.range (p.readWord source (u32 (i + ch.offsets))))) buff

def loadBuff (p : Kernel) (ch : Channel) (source : List UInt8) (buff : List Beat) : List Beat :=
  match ch.mode with
  | .FUNC_MODE => buff
  | .PERF_MODE =>
    if ch.numFrames > p.depth then loadWords p ch source p.memDepth buff
    else
      let numMemFrames := ch.numFrames / p.memRatio
      let numMemRes := ch.numFrames % p.memRatio
      let buff := loadWords p ch source numMemFrames buff
      if numMemRes ≠ 0 then
        fill buff (numMemFrames * p.memRatio) numMemRes
          (p.range (p.readWord source (u32 (numMemFrames + ch.offsets))))
      else buff

def loadReads (p : Kernel) (ch : Channel) : List Nat :=
  match ch.mode with
  | .FUNC_MODE => []
  | .PERF_MODE =>
    if ch.numFrames > p.depth then (List.range p.memDepth).map fun i => u32 (i + ch.offsets)
    else
      let numMemFrames := ch.numFrames / p.memRatio
      let numMemRes := ch.numFrames % p.memRatio
      ((List.range numMemFrames).map fun i => u32 (i + ch.offsets))
      ++ if numMemRes ≠ 0 then [u32 (numMemFrames + ch.offsets)] else []

/-- The memory word holding buffer entries `base .. base + n - 1`, zero above them. -/
def packWord (p : Kernel) (buff : List Beat) (base n : Nat) : MemWord :=
  (List.range n).foldl (fun data j => p.setRange data j (buff.getD (base + j) [])) p.zeroWord

/-- The memory words `store_buff` writes, with the index each is written at. -/
def storeBuff (p : Kernel) (ch : Channel) (buff : List Beat) : List (Nat × MemWord) :=
  match ch.mode with
  | .FUNC_MODE => []
  | .PERF_MODE =>
    if ch.numFrames > p.depth then
      (List.range p.memDepth).map fun i =>
        (u32 (i + ch.offsets), packWord p buff (i * p.memRatio) p.memRatio)
    else
      let numMemFrames := ch.numFrames / p.memRatio
      let numMemRes := ch.numFrames % p.memRatio
      ((List.range numMemFrames).map fun i =>
        (u32 (i + ch.offsets), packWord p buff (i * p.memRatio) p.memRatio))
      ++ if numMemRes ≠ 0 then
          [(u32 (numMemFrames + ch.offsets),
            packWord p buff (numMemFrames * p.memRatio) numMemRes)]
        else []

def applyWrites (p : Kernel) (mem : List UInt8) (writes : List (Nat × MemWord)) : List UInt8 :=
  writes.foldl (fun mem w => overwrite mem (w.1 * p.memWidth) w.2) mem

def storeBuffs (p : Kernel) (chs : Channels) (buffs : Nat → List Beat) (mem : List UInt8) :
    List UInt8 :=
  (List.range p.num_channels).foldl
    (fun mem c => applyWrites p mem (storeBuff p (chs.from_aie_ch c) (buffs c))) mem

/-! ### Performance mode: the streams -/

def laneBytes (v : Nat) : List UInt8 := [UInt8.ofNat (v % 256), UInt8.ofNat (v / 256 % 256)]

/-- The lanes of `val` in `feed`: lane `k` holds `div << k` in 16 bits, `div` being the pass in 16
bits. -/
def passLanes (p : Kernel) (pass : Nat) : List Beat :=
  (List.range (8 * p.word_size / 16)).map fun k => laneBytes ((pass % 2 ^ 16) <<< k % 2 ^ 16)

/-- `val`. What is above the last lane is never assigned and counts as zero. -/
def passMask (p : Kernel) (pass : Nat) : Beat :=
  (passLanes p pass).flatten ++ List.replicate (p.word_size % 2) 0

def xorBeat (a b : Beat) : Beat := List.zipWith (· ^^^ ·) a b

def feedBeat (p : Kernel) (buff : List Beat) (idx : Nat) : Beat :=
  xorBeat (buff.getD (idx % p.depth) []) (passMask p (idx / p.depth))

/-- The inner loop, `i` frames before its end. -/
def feedFrames (p : Kernel) (ch : Channel) (buff : List Beat) : Nat → List Beat
  | 0 => []
  | i + 1 => feedBeat p buff (ch.numFrames - (i + 1)) :: feedFrames p ch buff i

def feedReps (p : Kernel) (ch : Channel) (buff : List Beat) : Nat → List Beat
  | 0 => []
  | j + 1 => feedFrames p ch buff ch.numFrames ++ feedReps p ch buff j

def feedPerf (p : Kernel) (ch : Channel) (buff : List Beat) : List Beat :=
  feedReps p ch buff ch.numRep

/-- The inner loop of `get`; `none` when the stream runs dry and the read blocks. -/
def getFrames (p : Kernel) (ch : Channel) :
    Nat → List Beat → List Beat → Option (List Beat × List Beat)
  | 0, buff, strm => some (buff, strm)
  | _ + 1, _, [] => none
  | i + 1, buff, tmp :: strm =>
    getFrames p ch i (buff.set ((ch.numFrames - (i + 1)) % p.depth) tmp) strm

def getReps (p : Kernel) (ch : Channel) :
    Nat → List Beat → List Beat → Option (List Beat × List Beat)
  | 0, buff, strm => some (buff, strm)
  | j + 1, buff, strm => do
    let (buff, strm) ← getFrames p ch ch.numFrames buff strm
    getReps p ch j buff strm

/-- What `get` leaves in the buffer and on the stream in performance mode. -/
def getPerf (p : Kernel) (ch : Channel) (buff strm : List Beat) :
    Option (List Beat × List Beat) :=
  getReps p ch ch.numRep buff strm

end AieTestHarness
