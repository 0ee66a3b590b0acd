import AieTestHarness.Kernel.Card
import AieTestHarness.Proof.HarnessPerf

/-!
# What a card computes

A run of the kernel between `handleInputs` and `handleOutputs`, for any card.
-/

namespace AieTestHarness

/-- Whatever the order in which its processes run and whatever the URAM holds: when the kernel has
returned, the host finds in the user's buffers what the graph makes of the user's data, and nothing
else of the arguments has changed. -/
theorem Card.computed_of_runs (d : Card) (t t' : Transaction) (args : List TestHarnessArgs)
    (b : PlBuffers) (hposed : Posed d.p t args) (hinputs : t.handleInputs args = .ok t')
    (hlimit : t'.getMemoryUsage ≤ 2 ^ 30) (hruns : d.Runs t'.buffers b) :
    ∃ t'', (t'.withResults b).handleOutputs = .ok t''
      ∧ List.Forall₂ (Rewritten d.p.toSetup) args t''.args_rec
      ∧ Computed d.p d.graph t.mode t''.args_rec := by
  obtain ⟨u, s, hrun, hcomplete, rfl⟩ := hruns
  exact (d.harness u t'.buffers).computed_of_complete t t' args s d.burst_pos d.burst_le hposed
    hinputs hlimit rfl hrun hcomplete

/-! ### A run -/

def incrementGraph (p : Kernel) : AieGraph p where
  out x c := ((x c).filter fun b => b.length = p.word_size).map fun b => b.map (· + 1)
  mono h c := ((h c).filter _).map _
  sized x c b hb := by
    obtain ⟨b, hmem, rfl⟩ := List.mem_map.mp hb
    rw [List.length_map]
    exact of_decide_eq_true (List.mem_filter.mp hmem).2

def soleCard : Card where
  p := solePlatform
  burst_len := 128
  graph := incrementGraph _
  to_depth _ := 1
  from_depth _ := 1
  to_pos _ := Nat.one_pos
  from_pos _ := Nat.one_pos
  burst_pos := Nat.succ_pos 127
  burst_le := le_refl 128

def soleUram : Uram solePlatform where
  to_aie _ := List.replicate 16 [0, 0, 0, 0]
  from_aie _ := List.replicate 16 [0, 0, 0, 0]
  to_aie_length _ := rfl
  from_aie_length _ := rfl
  from_aie_sized _ := sized_replicate rfl

/-- A word to the graph and one back. -/
def soleArgs : List TestHarnessArgs := [soleArgument 1 word_lt, soleOutput 1 word_lt]

/-- An order of the statements in which the kernel gets through: how often which one. -/
def soleOrder : List (Nat × HarnessEvent) :=
  [(2, .feed 0), (1, .countTo 0), (2, .get 0), (5, .load), (6, .feed 0), (2, .countTo 0),
    (1, .take 0), (1, .give 0), (2, .get 0), (1, .countFrom 0), (6, .get 0), (2, .countFrom 0),
    (3, .load), (8, .store)]

def soleGiven : PlBuffers :=
  match (soleTransaction .FUNC_MODE).handleInputs soleArgs with
  | .ok t' => t'.buffers
  | .error _ => (soleTransaction .FUNC_MODE).buffers

def soleState : HarnessState :=
  ((soleCard.harness soleUram soleGiven).lts.exec
  (soleOrder.flatMap fun run => List.replicate run.1 run.2)
    (soleCard.harness soleUram soleGiven).init).getD (soleCard.harness soleUram soleGiven).init

def soleFound : PlBuffers := (soleCard.harness soleUram soleGiven).after soleState

theorem runs_sole : soleCard.Runs soleGiven soleFound := by
  have hexec : ∃ s ∈ (soleCard.harness soleUram soleGiven).lts.exec
      (soleOrder.flatMap fun run => List.replicate run.1 run.2)
      (soleCard.harness soleUram soleGiven).init,
      (soleCard.harness soleUram soleGiven).Complete s := by decide +kernel
  obtain ⟨s, hexec, hcomplete⟩ := hexec
  have hstate : soleState = s := by
    unfold soleState
    rw [Option.mem_def.mp hexec]
    rfl
  exact ⟨soleUram, s, Lts.run_of_exec (Option.mem_def.mp hexec),
    hcomplete, by rw [soleFound, hstate]⟩

theorem posed_sole : Posed solePlatform (soleTransaction .FUNC_MODE) soleArgs :=
  ⟨rfl, by decide, by decide +kernel, TestMode.noConfusion⟩

theorem Card.computed_of_runs_sole : ∃ t' t'',
    (soleTransaction .FUNC_MODE).handleInputs soleArgs = .ok t' ∧ soleCard.Runs t'.buffers soleFound
    ∧ (t'.withResults soleFound).handleOutputs = .ok t''
    ∧ Computed solePlatform (incrementGraph _) .FUNC_MODE t''.args_rec := by
  obtain ⟨t', hinputs, htest⟩ := Loops.exists_of_test
    (e := (soleTransaction .FUNC_MODE).handleInputs soleArgs)
    (fun t' : Transaction => decide (t'.getMemoryUsage ≤ 2 ^ 30)) (by decide +kernel)
  have hgiven : soleGiven = t'.buffers := by
    unfold soleGiven
    rw [hinputs]
  have hruns : soleCard.Runs t'.buffers soleFound := by
    rw [← hgiven]
    exact runs_sole
  obtain ⟨t'', hout, -, hcomputed⟩ := soleCard.computed_of_runs _ t' soleArgs soleFound posed_sole
    hinputs (of_decide_eq_true htest) hruns
  exact ⟨t', t'', hinputs, hruns, hout, hcomputed⟩

end AieTestHarness
