import AieTestHarness.Proof.HarnessProgress
import AieTestHarness.Proof.Local

/-!
# Performance mode is functional mode, written out

In performance mode the kernel plays the data of a channel over and over from its URAM. Where the
data fits, a user who writes the repetitions out and calls in functional mode finds in the last part
of what comes back what performance mode would have left there.
-/

namespace AieTestHarness

open Slices

/-- The second argument is the first with its repetitions written out. What is there already in a
buffer for data from the AIE does not matter. -/
structure Unrolls (p : Setup) (a a' : TestHarnessArgs) : Prop where
  idx_eq : a'.idx = a.idx
  size_eq : a'.size = a.repetition.toNat * a.size
  data_eq : a.IsTo p → a'.data.bytes.take a'.size
    = (List.replicate a.repetition.toNat (a.data.bytes.take a.size)).flatten

section Streams

variable {p : Platform} {a a' : TestHarnessArgs} {args args' : List TestHarnessArgs}

theorem beats_eq_pieces (p : Kernel) (a : TestHarnessArgs) :
    a.beats p = pieces p.word_size (a.size / p.word_size) a.data.bytes := rfl

theorem flatten_beats (hchecked : a.size % p.word_size = 0) :
    (a.beats p).flatten = a.data.bytes.take a.size := by
  rw [beats_eq_pieces, flatten_pieces, Nat.div_mul_cancel (Nat.dvd_of_mod_eq_zero hchecked)]

/-- What the graph receives for the data that is written out. -/
theorem Unrolls.beats_eq (h : Unrolls p.toSetup a a') (hto : a.IsTo p.toSetup)
    (hchecked : a.size % p.word_size = 0) (hsized : Sized p (a.beats p)) :
    a'.beats p = (List.replicate a.repetition.toNat (a.beats p)).flatten := by
  have hwidth : ∀ b ∈ (List.replicate a.repetition.toNat (a.beats p)).flatten, b.length
    = p.word_size := by
    intro b hb
    obtain ⟨bs, hbs, hb⟩ := List.mem_flatten.mp hb
    exact hsized b (List.eq_of_mem_replicate hbs ▸ hb)
  have hflat : (List.replicate a.repetition.toNat (a.beats p)).flatten.flatten
      = a'.data.bytes.take a'.size := by
    rw [List.flatten_flatten, List.map_replicate, flatten_beats hchecked, h.data_eq hto]
  have hcount : (List.replicate a.repetition.toNat (a.beats p)).flatten.length
      = a'.size / p.word_size := by
    have hlength : (a.beats p).length = a.size / p.word_size := length_pieces ..
    rw [List.length_flatten, List.map_replicate, List.sum_replicate_nat, hlength, h.size_eq,
      Nat.mul_div_assoc _ (Nat.dvd_of_mod_eq_zero hchecked)]
  calc
    a'.beats p = pieces p.word_size (a'.size / p.word_size) a'.data.bytes := rfl
    _ = pieces p.word_size (a'.size / p.word_size) (a'.data.bytes.take a'.size) :=
      (pieces_take (Nat.div_mul_le_self _ _)).symm
    _ = (List.replicate a.repetition.toNat (a.beats p)).flatten := by
      rw [← hflat, ← hcount, pieces_flatten hwidth]

theorem beats_le_depth (hfits : a.size ≤ p.bufBytes) : a.size / p.word_size ≤ p.depth :=
  calc
    a.size / p.word_size ≤ p.bufBytes / p.word_size := Nat.div_le_div_right hfits
    _ = p.depth := Nat.mul_div_cancel_left _ p.word_pos

/-- Data that fits is never masked. -/
theorem stream_perf_of_fits (hfits : a.size ≤ p.bufBytes) (hsized : Sized p (a.beats p)) :
    a.stream p .PERF_MODE = (List.replicate a.repetition.toNat (a.beats p)).flatten := by
  refine congrArg (fun bs => (List.replicate a.repetition.toNat bs).flatten) ?_
  refine List.map_congr_left fun i hi => ?_
  have hlt : i < p.depth := Nat.lt_of_lt_of_le (List.mem_range.mp hi) (beats_le_depth hfits)
  have hlength : (a.frame p i).length = p.word_size := hsized _ (List.mem_map_of_mem hi)
  rw [Nat.mod_eq_of_lt hlt, Nat.div_eq_of_lt hlt, passMask_zero, ← hlength, xorBeat_zero]

theorem streams_congr {mode mode' : TestMode} (h : List.Forall₂ (fun a a' => a'.idx = a.idx
      ∧ (a.IsTo p.toSetup → a'.stream p mode' = a.stream p mode)) args args') :
    streams p mode' args' = streams p mode args := by
  funext c
  unfold streams
  induction h with
  | nil => rfl
  | @cons a a' args args' heq _ ih =>
      obtain ⟨hidx, hstream⟩ := heq
      have hiff : (a'.IsTo p.toSetup ∧ a'.toChn = c) ↔ a.IsTo p.toSetup ∧ a.toChn = c := by
        unfold TestHarnessArgs.IsTo TestHarnessArgs.toChn
        rw [hidx]
      by_cases hto : a.IsTo p.toSetup ∧ a.toChn = c
      · simp only [List.find?_cons, decide_eq_true hto, decide_eq_true (hiff.mpr hto)]
        exact hstream hto.1
      · simp only [List.find?_cons, decide_eq_false hto, decide_eq_false fun h => hto (hiff.mp h)]
        exact ih

/-- What comes back in performance mode is the last part of what comes back in functional mode. -/
theorem Unrolls.expected_eq {graph : AieGraph p.toKernel} (h : Unrolls p.toSetup a a')
    (hrep : 1 ≤ a.repetition.toNat) (hrep' : a'.repetition.toNat = 1)
    (hchecked : a.size % p.word_size = 0)
    (hstreams : streams p .FUNC_MODE args' = streams p .PERF_MODE args) :
    slice ((a.repetition.toNat - 1) * a.size) a.size (a'.expected p graph .FUNC_MODE args')
      = a.expected p graph .PERF_MODE args := by
  obtain ⟨n, hn⟩ := Nat.dvd_of_mod_eq_zero hchecked
  have hchn : a'.fromChn = a.fromChn :=
    congrArg (fun idx : UInt16 => idx.toNat - PLIO_01_FROM_AIE) h.idx_eq
  have hcount : a.size / p.word_size = n := by rw [hn, Nat.mul_div_cancel_left _ p.word_pos]
  have hcount' : a'.size / p.word_size = a.repetition.toNat * n := by
    rw [h.size_eq, Nat.mul_div_assoc _ (Nat.dvd_of_mod_eq_zero hchecked), hcount]
  have hlast : (a.repetition.toNat - 1) * n + n = a.repetition.toNat * n := by
    rw [← Nat.succ_mul, Nat.succ_eq_add_one, Nat.sub_add_cancel hrep]
  unfold TestHarnessArgs.expected
  rw [hstreams, hchn, hcount, hcount', hrep', Nat.sub_self, Nat.zero_mul, hn,
    Nat.mul_comm p.word_size n,
    ← Nat.mul_assoc, slice_flatten_of_width, slice_slice _ (Nat.le_of_eq hlast), Nat.zero_add]
  exact fun b hb => graph.sized _ _ b (List.mem_of_mem_drop (List.mem_of_mem_take hb))

end Streams

def Card.Did (d : Card) (mode : TestMode) (args done : List TestHarnessArgs) : Prop :=
  ∃ t t' b t'', t.mode = mode ∧ Posed d.p t args ∧ t.handleInputs args = .ok t'
    ∧ t'.getMemoryUsage ≤ 2 ^ 30 ∧ d.Runs t'.buffers b ∧ (t'.withResults b).handleOutputs = .ok t''
    ∧ t''.args_rec = done

section Calls

variable {d : Card} {mode : TestMode} {args done args' done' : List TestHarnessArgs}

/-- A call that the host accepts can be carried out. -/
theorem Card.exists_did {t t' : Transaction} (u : Uram d.p) (hburst : d.burst_len < 128)
    (hposed : Posed d.p t args) (hinputs : t.handleInputs args = .ok t')
    (hlimit : t'.getMemoryUsage ≤ 2 ^ 30) (hanswers : Harness.Answers d.p d.graph t.mode args) :
    ∃ done, d.Did t.mode args done := by
  obtain ⟨s, hrun, hcomplete⟩ :=
    d.gets_through t t' args u _ hburst hposed hinputs hlimit hanswers .refl
  have hruns : d.Runs t'.buffers ((d.harness u t'.buffers).after s) := ⟨u, s, hrun, hcomplete, rfl⟩
  obtain ⟨t'', hout, -⟩ := d.computed_of_runs t t' args _ hposed hinputs hlimit hruns
  exact ⟨_, t, t', _, t'', rfl, hposed, hinputs, hlimit, hruns, hout, rfl⟩

theorem Card.Did.outcome (h : d.Did mode args done) : List.Forall₂ (Rewritten d.p.toSetup) args done
    ∧ Computed d.p d.graph mode done := by
  obtain ⟨t, t', b, t'', rfl, hposed, hinputs, hlimit, hruns, hout, rfl⟩ := h
  obtain ⟨u, hout', hrewritten, hcomputed⟩ :=
    d.computed_of_runs t t' args b hposed hinputs hlimit hruns
  obtain rfl : t'' = u := Except.ok.inj (hout.symm.trans hout')
  exact ⟨hrewritten, hcomputed⟩

theorem Card.Did.checked (h : d.Did mode args done) : ∀ a ∈ args, a.Checked d.p.toSetup := by
  obtain ⟨t, t', b, t'', -, hposed, hinputs, -⟩ := h
  exact (handleInputs_perf hposed.setup_eq hinputs).2.2.2

theorem Card.Did.sized (h : d.Did .PERF_MODE args done) {a : TestHarnessArgs} (ha : a ∈ args)
    (hto : a.IsTo d.p.toSetup) (hfits : a.size ≤ d.p.bufBytes) : Sized d.p (a.beats d.p) := by
  obtain ⟨t, t', b, t'', hmode, hposed, hinputs, -⟩ := h
  have hlayout := perfLayout_of_handleInputs (hposed.perf hmode).1 hposed.setup_eq hmode
    hposed.distinct hinputs
  intro beat hbeat
  obtain ⟨i, hi, rfl⟩ := List.mem_map.mp hbeat
  exact length_frame hlayout ha hto (Nat.lt_min.mpr
    ⟨List.mem_range.mp hi, Nat.lt_of_lt_of_le (List.mem_range.mp hi) (beats_le_depth hfits)⟩)

theorem Card.Did.once (h : d.Did .FUNC_MODE args done) : ∀ a ∈ args, a.repetition.toNat = 1 := by
  obtain ⟨t, t', b, t'', hmode, hposed, hinputs, hlimit, -⟩ := h
  exact fun a ha => ((funcToLayout_of_handleInputs hposed.setup_eq hmode hposed.distinct hinputs
    hlimit).checked a ha).2

/-- Where the data fits, performance mode computes what functional mode computes of the data with
its repetitions written out. -/
theorem Card.unrolled_of_runs (d : Card) (args done args' done' : List TestHarnessArgs)
    (hperf : d.Did .PERF_MODE args done) (hfunc : d.Did .FUNC_MODE args' done')
    (hunrolls : List.Forall₂ (Unrolls d.p.toSetup) args args')
    (hfits : ∀ a ∈ args, a.IsTo d.p.toSetup → a.size ≤ d.p.bufBytes) :
    List.Forall₂ (fun x y => Legible d.p .PERF_MODE x →
      x.data.bytes.take x.size = slice ((x.repetition.toNat - 1) * x.size) x.size y.data.bytes) done
        done' := by
  obtain ⟨hrewritten, hcomputed⟩ := hperf.outcome
  obtain ⟨hrewritten', hcomputed'⟩ := hfunc.outcome
  have hlisted : List.Forall₂ (fun a a' => a ∈ args ∧ Unrolls d.p.toSetup a a') args args' :=
    forall₂_imp_of_mem hunrolls fun a ha _ h => ⟨ha, h⟩
  have hstreams : streams d.p .FUNC_MODE args' = streams d.p .PERF_MODE args := by
    apply streams_congr
    refine hlisted.imp fun a a' h => ⟨h.2.idx_eq, fun hto => ?_⟩
    have hsized := hperf.sized h.1 hto (hfits a h.1 hto)
    rw [stream_perf_of_fits (hfits a h.1 hto) hsized]
    exact h.2.beats_eq hto (hperf.checked a h.1).2 hsized
  refine (forall₂_of_common (forall₂_of_common hlisted hrewritten) hrewritten').imp ?_
  rintro x y ⟨hx, hy, a', ⟨ha', -, a, ⟨ha, hunroll⟩, hax⟩, hay⟩ ⟨hfrom, hrep, hsize⟩
  have hfrom' : y.IsFrom d.p.toSetup := by
    rw [hax.isFrom_iff] at hfrom
    rw [hay.isFrom_iff]
    unfold TestHarnessArgs.IsFrom
    rwa [hunroll.idx_eq]
  have hrep' : a'.repetition.toNat = 1 := hfunc.once a' ha'
  have hpart : (a.repetition.toNat - 1) * a.size + a.size ≤ y.size := by
    rw [hay.size_eq, hunroll.size_eq, ← Nat.succ_mul]
    rw [hax.repetition_eq] at hrep
    exact Nat.mul_le_mul_right _ (Nat.le_of_eq (Nat.sub_add_cancel hrep))
  calc
    x.data.bytes.take x.size = x.expected d.p d.graph .PERF_MODE done :=
      hcomputed x hx hfrom hrep hsize
    _ = a.expected d.p d.graph .PERF_MODE args := expected_eq_of_kept hrewritten hax
    _ = slice ((a.repetition.toNat - 1) * a.size) a.size
      (a'.expected d.p d.graph .FUNC_MODE args') :=
      (hunroll.expected_eq (by rwa [← hax.repetition_eq]) hrep'
      (hperf.checked a ha).2 hstreams).symm
    _ = slice ((a.repetition.toNat - 1) * a.size) a.size
      (y.expected d.p d.graph .FUNC_MODE done') := by
      rw [expected_eq_of_kept hrewritten' hay]
    _ = slice ((a.repetition.toNat - 1) * a.size) a.size (y.data.bytes.take y.size) := by
      rw [hcomputed' y hy hfrom' (by rw [hay.repetition_eq, hrep']) TestMode.noConfusion]
    _ = slice ((x.repetition.toNat - 1) * x.size) x.size y.data.bytes := by
      rw [slice_take _ hpart, hax.repetition_eq, hax.size_eq]

end Calls

/-! ### A word, twice -/

theorem two_words_lt : 4 * 2 < 2 ^ 57 := by decide

def twiceArgs : List TestHarnessArgs := soleArgs.map fun a => { a with repetition := 2 }

def writtenArgs : List TestHarnessArgs := [soleArgument 2 two_words_lt, soleOutput 2 two_words_lt]

theorem exists_did_sole (mode : TestMode) (args : List TestHarnessArgs)
    (hposed : Posed solePlatform (soleTransaction mode) args)
    (hinputs : ∃ t', (soleTransaction mode).handleInputs args = .ok t' ∧ t'.getMemoryUsage ≤ 2 ^ 30)
    (hanswers : Harness.Answers solePlatform (incrementGraph _) mode args) :
    ∃ done, burstCard.Did mode args done := by
  obtain ⟨t', hinputs, hlimit⟩ := hinputs
  exact Card.exists_did (d := burstCard) (t := soleTransaction mode) soleUram
    (by decide) hposed hinputs hlimit hanswers

theorem Card.unrolled_of_runs_twice : ∃ done done', burstCard.Did .PERF_MODE twiceArgs done
    ∧ burstCard.Did .FUNC_MODE writtenArgs done'
    ∧ List.Forall₂ (fun x y => Legible solePlatform .PERF_MODE x →
      x.data.bytes.take x.size = slice ((x.repetition.toNat - 1) * x.size) x.size y.data.bytes)
        done done' := by
  have hanswers : Harness.Answers solePlatform (incrementGraph _) .PERF_MODE twiceArgs
      ∧ Harness.Answers solePlatform (incrementGraph _) .FUNC_MODE writtenArgs := by
    unfold Harness.Answers
    decide +kernel
  obtain ⟨done, hperf⟩ := exists_did_sole .PERF_MODE twiceArgs
    ⟨rfl, by decide, by decide +kernel, fun _ => by decide +kernel⟩
    (Loops.exists_of_test (fun t' : Transaction => decide (t'.getMemoryUsage ≤ 2 ^ 30))
    (by decide +kernel)
      |>.imp fun _ h => ⟨h.1, of_decide_eq_true h.2⟩) hanswers.1
  obtain ⟨done', hfunc⟩ := exists_did_sole .FUNC_MODE writtenArgs
    ⟨rfl, by decide, by decide +kernel, TestMode.noConfusion⟩
    (Loops.exists_of_test (fun t' : Transaction => decide (t'.getMemoryUsage ≤ 2 ^ 30))
    (by decide +kernel)
      |>.imp fun _ h => ⟨h.1, of_decide_eq_true h.2⟩) hanswers.2
  refine ⟨done, done', hperf, hfunc, burstCard.unrolled_of_runs twiceArgs done writtenArgs done'
    hperf hfunc ?_ (by decide +kernel)⟩
  refine .cons ⟨rfl, rfl, fun _ => by decide +kernel⟩ (.cons ⟨rfl, rfl, fun hto => ?_⟩ .nil)
  exact absurd hto (by decide)

end AieTestHarness
