import AieTestHarness.Kernel.Receive
import AieTestHarness.Kernel.Transmit

/-!
# Performance counters

Beside `feed` and `get` of a channel runs `counter`, which counts its own iterations and notes the
two at which it finds a trigger. The triggers come through a stream of depth 4, which the other
models leave out: it is never full. `store_perf` then writes the counters of all channels.
-/

namespace AieTestHarness

/-- What a process writes to or reads from the outside, in order. -/
inductive Act where
  | beat (b : Beat)
  | trigger
  deriving DecidableEq

def beatsOf (acts : List Act) : List Beat :=
  acts.filterMap fun
    | .beat b => some b
    | .trigger => none

/-- A process that writes triggers: the state one statement leads to, and whether it wrote one. -/
structure Source (σ ι : Type) where
  step : ι → σ → Option (σ × Bool)

/-! ### `feed` -/

inductive FeedProc where
  | wait (count : Nat)
  | first
  | func (pc : FeedPc)
  /-- In the loops of the performance mode, `j` repetitions and `i` frames before their end. -/
  | perf (j i : Nat)
  | last
  | returned

structure FeedState where
  pc : FeedProc
  memStr : List MemWord
  acts : List Act

/-- A statement of `feed`, the AXI stream having `room` or not, or a memory word that arrives. -/
inductive FeedLabel where
  | step (room : Bool)
  | mem (data : MemWord)

namespace FeedState

variable (p : Kernel) (ch : Channel) (buff : List Beat)

def branch : FeedProc :=
  match ch.mode with
  | .FUNC_MODE => .func (.head 0)
  | .PERF_MODE => .perf ch.numRep ch.numFrames

def init : FeedState := ⟨.wait ch.delays, [], []⟩

def goto (s : FeedState) (pc : FeedProc) : FeedState := { s with pc }

def trigger (s : FeedState) (pc : FeedProc) : FeedState :=
    { s with pc, acts := s.acts ++ [.trigger] }

def next (room : Bool) (s : FeedState) : Option (FeedState × Bool) :=
  match s.pc with
  | .wait (count + 1) => some (s.goto (.wait count), false)
  | .wait 0 => some (s.goto .first, false)
  | .first => some (s.trigger (branch ch), true)
  | .func .done => some (s.goto .last, false)
  | .func pc =>
    (feedStep p ch room s.memStr pc).map fun (pc, memStr, out) =>
      (⟨.func pc, memStr, s.acts ++ out.map .beat⟩, false)
  | .perf 0 _ => some (s.goto .last, false)
  | .perf (j + 1) 0 => some (s.goto (.perf j ch.numFrames), false)
  | .perf (j + 1) (i + 1) =>
    if room then
      some ({ s with
        pc := .perf (j + 1) i
        acts := s.acts ++ [.beat (feedBeat p buff (ch.numFrames - (i + 1)))] }, false)
    else none
  | .last => some (s.trigger .returned, true)
  | .returned => none

def feed : Source FeedState FeedLabel where
  step
    | .step room, s => next p ch buff room s
    | .mem data, s => some ({ s with memStr := s.memStr ++ [data] }, false)

end FeedState

/-! ### `get` -/

/-- Where `get` stands; `firstData` is its flag. -/
inductive GetProc where
  | wait (count : Nat)
  | func (pc : GetPc) (firstData : Bool)
  /-- At the trigger for the first stream word. -/
  | funcMark (pc : GetPc)
  | perf (j i : Nat) (firstData : Bool)
  | perfMark (j i : Nat)
  | after (firstData : Bool)
  | last
  | returned

structure GetState where
  pc : GetProc
  strm : List Beat
  buff : List Beat
  acts : List Act

/-- A statement of `get`, the FIFO to memory having `room` or not, or a stream word that arrives. -/
inductive GetLabel where
  | step (room : Bool)
  | aie (b : Beat)

namespace GetState

variable (p : Kernel) (ch : Channel)

def branch : GetProc :=
  match ch.mode with
  | .FUNC_MODE => .func (.head 0) true
  | .PERF_MODE => .perf ch.numRep ch.numFrames true

def init (buff : List Beat) : GetState := ⟨.wait ch.delays, [], buff, []⟩

def goto (s : GetState) (pc : GetProc) : GetState := { s with pc }

def trigger (s : GetState) (pc : GetProc) : GetState := { s with pc, acts := s.acts ++ [.trigger] }

/-- After a statement that may have read a stream word: the flag sends it to the trigger. -/
def afterRead (firstData : Bool) (strm strm' : List Beat) (pc : GetPc) : GetProc :=
  if firstData = true ∧ strm'.length < strm.length then .funcMark pc else .func pc firstData

def next (room : Bool) (s : GetState) : Option (GetState × Bool) :=
  match s.pc with
  | .wait (count + 1) => some (s.goto (.wait count), false)
  | .wait 0 => some (s.goto (branch ch), false)
  | .func .done firstData => some (s.goto (.after firstData), false)
  | .func pc firstData =>
    (getStep p ch room s.strm pc).map fun (pc, strm, _) =>
      ({ s with
        pc := afterRead firstData s.strm strm pc
        strm
        acts := s.acts ++ (s.strm.take (s.strm.length - strm.length)).map .beat }, false)
  | .funcMark pc => some (s.trigger (.func pc false), true)
  | .perf 0 _ firstData => some (s.goto (.after firstData), false)
  | .perf (j + 1) 0 firstData => some (s.goto (.perf j ch.numFrames firstData), false)
  | .perf (j + 1) (i + 1) firstData =>
    match s.strm with
    | [] => none
    | tmp :: strm =>
      some ({
        pc := if firstData then .perfMark (j + 1) i else .perf (j + 1) i false
        strm
        buff := s.buff.set ((ch.numFrames - (i + 1)) % p.depth) tmp
        acts := s.acts ++ [.beat tmp] }, false)
  | .perfMark j i => some (s.trigger (.perf j i false), true)
  | .after true => some (s.trigger .last, true)
  | .after false => some (s.goto .last, false)
  | .last => some (s.trigger .returned, true)
  | .returned => none

def get : Source GetState GetLabel where
  step
    | .step room, s => next p ch room s
    | .aie b, s => some ({ s with strm := s.strm ++ [b] }, false)

end GetState

/-! ### `counter` -/

inductive CounterState where
  | START
  | FIRST
  | LAST
  deriving DecidableEq, Repr

structure Counter where
  st : CounterState
  /-- The local variable, a `uint64_t`. -/
  counter : Nat
  firstcc : Nat
  lastcc : Nat
  returned : Bool
  deriving DecidableEq, Repr

namespace Counter

/-- `firstcc` and `lastcc` as the constructor of the channel leaves them. -/
def start : Counter := ⟨.START, 0, 0, 0, false⟩

def tick (c : Counter) : Counter := { c with counter := u64 (c.counter + 1) }

/-- One iteration of the loop, and whether it read a trigger. -/
def iterate (c : Counter) (isEmpty : Bool) : Counter × Bool :=
  match c.st with
  | .START =>
    if isEmpty then (c.tick, false)
    else ({ c with st := .FIRST, firstcc := c.counter }.tick, true)
  | .FIRST =>
    if isEmpty then (c.tick, false)
    else ({ c with st := .LAST, lastcc := c.counter }.tick, true)
  | .LAST => ({ c with returned := true }, false)

end Counter

structure Counted (σ : Type) where
  proc : σ
  trigger_strm : Nat
  cnt : Counter
  iters : Nat
  reads : List Nat

namespace Source

variable {σ ι : Type} (P : Source σ ι)

/-- `#pragma HLS stream variable = trigger_strm depth = 4`. -/
def triggerDepth : Nat := 4

/-- `load_stream` and `store_stream`: `none` is an iteration of the counter. A write to a full
stream blocks. -/
def counted : Lts (Counted σ) (Option ι) where
  step
    | some l, s =>
      match P.step l s.proc with
      | none => none
      | some (proc, false) => some { s with proc }
      | some (proc, true) =>
        if s.trigger_strm < triggerDepth then some
          { s with proc, trigger_strm := s.trigger_strm + 1 }
        else none
    | none, s =>
      if s.cnt.returned then none
      else
        let (cnt, read) := s.cnt.iterate (s.trigger_strm = 0)
        some { s with
          cnt
          trigger_strm := if read then s.trigger_strm - 1 else s.trigger_strm
          iters := s.iters + 1
          reads := if read then s.reads ++ [s.iters] else s.reads }

def start (proc : σ) : Counted σ := ⟨proc, 0, .start, 0, []⟩

end Source

/-! ### `store_perf` -/

def storePerfLoop (p : Kernel) (k : Nat) (v : Nat → Nat) (perf : List Nat) : List Nat :=
  (List.range p.num_channels).foldl (fun perf i => perf.set (i + p.num_channels * k) (v i)) perf

def storePerf (p : Kernel) (to_aie_ch from_aie_ch : Nat → Counter) (perf : List Nat) : List Nat :=
  let perf := storePerfLoop p 0 (fun i => (to_aie_ch i).firstcc) perf
  let perf := storePerfLoop p 1 (fun i => (to_aie_ch i).lastcc) perf
  let perf := storePerfLoop p 2 (fun i => (from_aie_ch i).firstcc) perf
  storePerfLoop p 3 (fun i => (from_aie_ch i).lastcc) perf

/-- The cycles `printPerf` divides by. -/
def Transaction.cycles (t : Transaction) (idx : UInt16) : Nat :=
  match t.perf_map idx.toNat with
  | some (first, second) => u64 (second + 2 ^ 64 - first)
  | none => 0

end AieTestHarness
