import AieTestHarness.Kernel.Counter
import AieTestHarness.Server.FastXM

/-!
# The kernel

`vck190_test_harness`, `vek280_test_harness` and `vek385_test_harness` load the configuration and
the URAM buffers, run one dataflow region, and store the buffers and the counters. In the region run
side by side `load_memories`, `load_stream` and `store_stream` of every channel, each a process and
its counter, and `store_memories`. The graph on the AI Engines stands between the streams of both
sides.
-/

namespace AieTestHarness

/-- A graph on the AI Engines: what it has put out on each channel when it has taken so much on each
channel. It takes nothing back, and stream words are of the width of the stream. -/
structure AieGraph (p : Kernel) where
  out : (Nat → List Beat) → Nat → List Beat
  mono : ∀ {x y : Nat → List Beat}, (∀ c, x c <+: y c) → ∀ c, out x c <+: out y c
  sized : ∀ x c, ∀ b ∈ out x c, b.length = p.word_size

/-- A run of the kernel: what it is given. -/
structure Harness where
  p : Platform
  burst_len : Nat
  graph : AieGraph p.toKernel
  cfg : List Nat
  to_aie_mem : List UInt8
  from_aie_mem : List UInt8
  perf : List Nat
  /-- What the URAM of the channels holds before. -/
  to_uram : Nat → List Beat
  from_uram : Nat → List Beat
  /-- Stream words that fit on the AXI streams. -/
  to_depth : Nat → Nat
  from_depth : Nat → Nat
  to_pos : ∀ c, 0 < to_depth c
  from_pos : ∀ c, 0 < from_depth c
  to_uram_length : ∀ c, (to_uram c).length = p.depth
  from_uram_length : ∀ c, (from_uram c).length = p.depth
  from_uram_sized : ∀ c, ∀ b ∈ from_uram c, b.length = p.word_size

structure HarnessState where
  load : MemProc
  /-- Indices of `to_aie_mem` that `load_memories` read. -/
  reads : List Nat
  /-- Calls of `write_nb` that found the FIFO full. -/
  lost : Nat
  /-- The processes of `load_stream`, the FIFO in front of each within it. -/
  to_aie_ch : Nat → Counted FeedState
  to_aie_strm : Nat → List Beat
  taken : Nat → List Beat
  given : Nat → Nat
  /-- The processes of `store_stream`, the AXI stream in front of each within it. -/
  from_aie_ch : Nat → Counted GetState
  store : MemProc
  io : RxIO

/-- A statement of one of the processes, an iteration of one of the counters (`countTo`,
`countFrom`), or the graph taking or delivering a stream word. -/
inductive HarnessEvent where
  | load
  | feed (c : Nat)
  | countTo (c : Nat)
  | take (c : Nat)
  | give (c : Nat)
  | get (c : Nat)
  | countFrom (c : Nat)
  | store
  deriving DecidableEq

def GetState.put (p : Kernel) (ch : Channel) (room : Bool) (s : GetState) : List MemWord :=
  match s.pc with
  | .func pc _ => ((getStep p ch room s.strm pc).map fun next => next.2.2).getD []
  | _ => []

namespace Harness

variable (H : Harness)

def chs : Channels := loadCfg H.p H.cfg

def buff (c : Nat) : List Beat := loadBuff H.p (H.chs.to_aie_ch c) H.to_aie_mem (H.to_uram c)

/-- `load_memories`, as it runs in the functional mode. -/
def transmit : Transmit := ⟨H.p, H.burst_len, H.chs, H.to_aie_mem, H.to_depth⟩

/-- `store_memories`, as it runs in the functional mode against a graph that delivers `beats`. -/
def receive (beats : Nat → List Beat) : Receive :=
  ⟨H.p, H.burst_len, H.chs, H.from_aie_mem, beats, H.from_depth, H.from_pos⟩

def loadMemories : MemLoop TxIO := H.transmit.loadMemories

def storeMemories : MemLoop RxIO := (H.receive fun _ => []).storeMemories

def loadStream (c : Nat) : Lts (Counted FeedState) (Option FeedLabel) :=
  (FeedState.feed H.p (H.chs.to_aie_ch c) (H.buff c)).counted

def storeStream (c : Nat) : Lts (Counted GetState) (Option GetLabel) :=
  (GetState.get H.p (H.chs.from_aie_ch c)).counted

def init : HarnessState where
  load := H.loadMemories.start
  reads := []
  lost := 0
  to_aie_ch c := Source.start (.init (H.chs.to_aie_ch c))
  to_aie_strm _ := []
  taken _ := []
  given _ := 0
  from_aie_ch c := Source.start (.init (H.chs.from_aie_ch c) (H.from_uram c))
  store := H.storeMemories.start
  io := ⟨fun _ => [], H.from_aie_mem, [], 0⟩

variable (s : HarnessState)

def txView : TxIO := ⟨fun c => (s.to_aie_ch c).proc.memStr, s.reads, s.lost⟩

def withMemStr (ch : Counted FeedState) (memStr : List MemWord) : Counted FeedState :=
  { ch with proc := { ch.proc with memStr } }

def loadStep : Option HarnessState :=
  (H.loadMemories.step s.load (txView s)).map fun (load, io) =>
    { s with
      load
      reads := io.reads
      lost := io.lost
      to_aie_ch := fun c => withMemStr (s.to_aie_ch c) (io.to_aie_strm c) }

def feedStep (c : Nat) : Option HarnessState :=
  (H.loadStream c |>.step (some (.step ((s.to_aie_strm c).length < H.to_depth c)))
      (s.to_aie_ch c)).map fun ch =>
    { s with
      to_aie_ch := Function.update s.to_aie_ch c ch
      to_aie_strm := Function.update s.to_aie_strm c
        (s.to_aie_strm c ++ beatsOf (ch.proc.acts.drop (s.to_aie_ch c).proc.acts.length)) }

def takeStep (c : Nat) : Option HarnessState :=
  match s.to_aie_strm c with
  | [] => none
  | b :: rest =>
    some { s with
      to_aie_strm := Function.update s.to_aie_strm c rest
      taken := Function.update s.taken c (s.taken c ++ [b]) }

def giveStep (c : Nat) : Option HarnessState :=
  match (H.graph.out s.taken c)[s.given c]? with
  | none => none
  | some b =>
    if (s.from_aie_ch c).proc.strm.length < H.from_depth c then
      (H.storeStream c |>.step (some (.aie b)) (s.from_aie_ch c)).map fun ch =>
        { s with
          from_aie_ch := Function.update s.from_aie_ch c ch
          given := Function.update s.given c (s.given c + 1) }
    else none

def getStep (c : Nat) : Option HarnessState :=
  let room : Bool := (s.io.from_aie_strm c).length < H.burst_len * 2
  (H.storeStream c |>.step (some (.step room)) (s.from_aie_ch c)).map fun ch =>
    { s with
      from_aie_ch := Function.update s.from_aie_ch c ch
      io := { s.io with
        from_aie_strm := Function.update s.io.from_aie_strm c (s.io.from_aie_strm c
          ++ GetState.put H.p (H.chs.from_aie_ch c) room (s.from_aie_ch c).proc) } }

def storeStep : Option HarnessState :=
  (H.storeMemories.step s.store s.io).map fun (store, io) => { s with store, io }

/-- A step of a channel the kernel has. -/
def channelStep : HarnessEvent → Option HarnessState
  | .feed c => if c < H.p.num_channels then H.feedStep s c else none
  | .countTo c =>
    if c < H.p.num_channels then
      (H.loadStream c |>.step none (s.to_aie_ch c)).map fun ch =>
        { s with to_aie_ch := Function.update s.to_aie_ch c ch }
    else none
  | .take c => if c < H.p.num_channels then takeStep s c else none
  | .give c => if c < H.p.num_channels then H.giveStep s c else none
  | .get c => if c < H.p.num_channels then H.getStep s c else none
  | .countFrom c =>
    if c < H.p.num_channels then
      (H.storeStream c |>.step none (s.from_aie_ch c)).map fun ch =>
        { s with from_aie_ch := Function.update s.from_aie_ch c ch }
    else none
  | _ => none

/-- The dataflow region, `load_store_stream_16x16` or `load_store_stream_36x36`. -/
def lts : Lts HarnessState HarnessEvent where
  step
    | .load, s => H.loadStep s
    | .store, s => H.storeStep s
    | l, s => H.channelStep s l

structure Complete : Prop where
  load : s.load.pc = .done
  store : s.store.pc = .done
  to_aie_ch : ∀ c < H.p.num_channels,
    (s.to_aie_ch c).proc.pc = .returned ∧ (s.to_aie_ch c).cnt.returned = true
  from_aie_ch : ∀ c < H.p.num_channels,
    (s.from_aie_ch c).proc.pc = .returned ∧ (s.from_aie_ch c).cnt.returned = true

instance (pc : FeedProc) : Decidable (pc = .returned) :=
  match pc with
  | .returned => .isTrue rfl
  | .wait _ | .first | .func _ | .perf _ _ | .last => .isFalse (by simp)

instance (pc : GetProc) : Decidable (pc = .returned) :=
  match pc with
  | .returned => .isTrue rfl
  | .wait _ | .func _ _ | .funcMark _ | .perf _ _ _ | .perfMark _ _ | .after _ | .last =>
    .isFalse (by simp)

instance : Decidable (H.Complete s) :=
  decidable_of_iff
    (s.load.pc = .done ∧ s.store.pc = .done
      ∧ (∀ c < H.p.num_channels,
        (s.to_aie_ch c).proc.pc = .returned ∧ (s.to_aie_ch c).cnt.returned = true)
      ∧ ∀ c < H.p.num_channels,
        (s.from_aie_ch c).proc.pc = .returned ∧ (s.from_aie_ch c).cnt.returned = true)
    ⟨fun ⟨hload, hstore, hto, hfrom⟩ => ⟨hload, hstore, hto, hfrom⟩,
      fun ⟨hload, hstore, hto, hfrom⟩ => ⟨hload, hstore, hto, hfrom⟩⟩

/-- `store_buffs`, behind the region: `from_aie_mem` as the kernel leaves it. -/
def memAfter : List UInt8 :=
  storeBuffs H.p H.chs (fun c => (s.from_aie_ch c).proc.buff) s.io.mem

def perfAfter : List Nat :=
  storePerf H.p (fun c => (s.to_aie_ch c).cnt) (fun c => (s.from_aie_ch c).cnt) H.perf

def buffers : PlBuffers := ⟨H.cfg, H.perf, H.to_aie_mem, H.from_aie_mem⟩

def after : PlBuffers := ⟨H.cfg, H.perfAfter s, H.to_aie_mem, H.memAfter s⟩

end Harness

end AieTestHarness
