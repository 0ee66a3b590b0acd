import AieTestHarness.Kernel.Harness

/-!
# The card

What stays from one run of the kernel to the next: the kernel itself, its streams and the graph.
What a run makes of its buffers depends on the order in which its processes run, on what the URAM
holds before it, and on nothing else.
-/

namespace AieTestHarness

deriving instance DecidableEq for PlBuffers

structure Card where
  p : Platform
  burst_len : Nat
  graph : AieGraph p.toKernel
  to_depth : Nat → Nat
  from_depth : Nat → Nat
  to_pos : ∀ c, 0 < to_depth c
  from_pos : ∀ c, 0 < from_depth c
  burst_pos : 1 ≤ burst_len
  burst_le : burst_len ≤ 128

structure Uram (p : Platform) where
  to_aie : Nat → List Beat
  from_aie : Nat → List Beat
  to_aie_length : ∀ c, (to_aie c).length = p.depth
  from_aie_length : ∀ c, (from_aie c).length = p.depth
  from_aie_sized : ∀ c, ∀ b ∈ from_aie c, b.length = p.word_size

namespace Card

variable (d : Card)

def harness (u : Uram d.p) (b : PlBuffers) : Harness where
  p := d.p
  burst_len := d.burst_len
  graph := d.graph
  cfg := b.cfg
  to_aie_mem := b.to_aie
  from_aie_mem := b.from_aie
  perf := b.perf
  to_uram := u.to_aie
  from_uram := u.from_aie
  to_depth := d.to_depth
  from_depth := d.from_depth
  to_pos := d.to_pos
  from_pos := d.from_pos
  to_uram_length := u.to_aie_length
  from_uram_length := u.from_aie_length
  from_uram_sized := u.from_aie_sized

/-- A run that finds `b` in its buffers may leave `b'` there. -/
def Runs (b b' : PlBuffers) : Prop :=
  ∃ u s, (d.harness u b).lts.Run (d.harness u b).init s ∧ (d.harness u b).Complete s
    ∧ b' = (d.harness u b).after s

end Card

/-- A memory as it is allocated: what the run writes is zero. -/
def PlBuffers.fresh (b : PlBuffers) : PlBuffers :=
  { b with
    perf := List.replicate b.perf.length 0
    from_aie := List.replicate b.from_aie.length 0 }

end AieTestHarness
