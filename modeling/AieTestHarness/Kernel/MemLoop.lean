import AieTestHarness.Kernel.Channel
import AieTestHarness.Lib.Window
import Mathlib.Logic.Function.Basic

/-!
# The memory loops

`load_memories` and `store_memories` are one loop. A shift register of channel numbers is read round
robin; a channel with a burst to move and a FIFO ready for it moves a burst, one whose FIFO is ready
for all that is left moves that, any other is left for the next round, and one with nothing left
drops out. They differ in what a ready FIFO is and in which way a word moves.

Every statement that looks at a FIFO is a step of its own: other processes move between the test of
a burst and the test of the rest, and between two words of one burst.
-/

namespace AieTestHarness

open Window

structure Scheduler where
  num_valid_channels : Nat
  frame_idx : Nat → Nat
  channel_regs : List Nat

namespace Scheduler

/-- The loop that shifts every channel in. What the register held before does not matter. -/
def start (n : Nat) : Scheduler where
  num_valid_channels := n
  frame_idx := fun _ => 0
  channel_regs := (List.range n).foldl (fun regs i => shift i regs) (List.replicate n 0)

/-- `channel_regs.read(num_valid_channels - 1)`. -/
def ch_id (s : Scheduler) : Nat := s.channel_regs.getD (s.num_valid_channels - 1) 0

/-- `num_valid_channels--`. -/
def retire (s : Scheduler) : Scheduler :=
  { s with num_valid_channels := s.num_valid_channels - 1 }

/-- `channel_regs.shift(ch_id)`. -/
def serve (s : Scheduler) (ch_id : Nat) : Scheduler :=
  { s with channel_regs := shift ch_id s.channel_regs }

/-- `frame_idx[ch_id] += n`. -/
def advance (s : Scheduler) (ch_id n : Nat) : Scheduler :=
  { s with frame_idx := Function.update s.frame_idx ch_id (u32 (s.frame_idx ch_id + n)) }

end Scheduler

inductive MemPc where
  | start
  | head
  | burstTest (ch_id numData : Nat)
  | resTest (ch_id numData : Nat)
  | burst (ch_id j : Nat)
  | residual (ch_id numData j : Nat)
  | done
  deriving DecidableEq

structure MemProc where
  sched : Scheduler
  pc : MemPc

/-- What a memory loop does to the world `σ` it shares with the other processes. -/
structure MemLoop (σ : Type) where
  p : Kernel
  burst_len : Nat
  chs : Nat → Channel
  burstReady : σ → Nat → Bool
  resReady : σ → Nat → Nat → Bool
  /-- A word moves between the FIFO of a channel and an index of `mem`. -/
  move : σ → Nat → Nat → σ

namespace MemLoop

variable {σ : Type} (L : MemLoop σ)

def start : MemProc := ⟨.start L.p.num_channels, .start⟩

/-- `(numFrames + MEM_RATIO - 1) / MEM_RATIO`, the memory words of a channel. -/
def numWords (ch_id : Nat) : Nat := u32 ((L.chs ch_id).numFrames + L.p.memRatio - 1) / L.p.memRatio

def numData (s : Scheduler) (ch_id : Nat) : Nat :=
  u32 (L.numWords ch_id + 2 ^ 32 - s.frame_idx ch_id)

def step (m : MemProc) (x : σ) : Option (MemProc × σ) :=
  match m.pc with
  | .start => some ({ m with pc := if (L.chs 0).mode = .FUNC_MODE then .head else .done }, x)
  | .head =>
    if m.sched.num_valid_channels = 0 then some ({ m with pc := .done }, x)
    else
      let ch_id := m.sched.ch_id
      let numData := L.numData m.sched ch_id
      if numData = 0 then some ({ m with sched := m.sched.retire }, x)
      else some (⟨m.sched.serve ch_id, .burstTest ch_id numData⟩, x)
  | .burstTest ch_id numData =>
    if L.burst_len ≤ numData ∧ L.burstReady x ch_id then some ({ m with pc := .burst ch_id 0 }, x)
    else some ({ m with pc := .resTest ch_id numData }, x)
  | .resTest ch_id numData =>
    if L.resReady x ch_id numData then some ({ m with pc := .residual ch_id numData 0 }, x)
    else some ({ m with pc := .head }, x)
  | .burst ch_id j =>
    if j < L.burst_len then
      some ({ m with pc := .burst ch_id (j + 1) },
        L.move x ch_id (u32 ((L.chs ch_id).offsets + m.sched.frame_idx ch_id + j)))
    else some (⟨m.sched.advance ch_id L.burst_len, .head⟩, x)
  | .residual ch_id numData j =>
    -- `j` is an `ap_uint<8>`
    if j < numData then
      some ({ m with pc := .residual ch_id numData ((j + 1) % 2 ^ 8) },
        L.move x ch_id (u32 ((L.chs ch_id).offsets + m.sched.frame_idx ch_id) + j))
    else some (⟨m.sched.advance ch_id numData, .head⟩, x)
  | .done => none

/-- The next statement enters the loop of the rest with more words than its counter can count. -/
def Wraps (m : MemProc) (x : σ) : Prop :=
  ∃ ch_id numData, m.pc = .resTest ch_id numData ∧ L.resReady x ch_id numData = true
    ∧ 2 ^ 8 ≤ numData

end MemLoop

end AieTestHarness
