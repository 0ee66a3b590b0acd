import AieTestHarness.Kernel.Harness
import AieTestHarness.Proof.Outputs
import AieTestHarness.Proof.PerfLayout
import AieTestHarness.Proof.Words

/-!
# What a transaction asks for

Stated without the kernel: the graph receives the user's data, and the user's buffers hold what the
graph puts out on it.
-/

namespace AieTestHarness

open Slices Loops Transaction

/-- What the graph receives for an argument to the AIE. In performance mode that is the data over
and over, each pass over the buffer of the channel masked with its number. -/
def TestHarnessArgs.stream (p : Kernel) (mode : TestMode) (a : TestHarnessArgs) : List Beat :=
  match mode with
  | .FUNC_MODE => a.beats p
  | .PERF_MODE =>
    (List.replicate a.repetition.toNat ((List.range (a.size / p.word_size)).map fun i =>
      xorBeat (a.frame p (i % p.depth)) (passMask p (i / p.depth)))).flatten

def streams (p : Kernel) (mode : TestMode) (args : List TestHarnessArgs) (c : Nat) : List Beat :=
  match args.find? fun a => a.IsTo p.toSetup ∧ a.toChn = c with
  | some a => a.stream p mode
  | none => []

/-- What an argument from the AIE ends up with: the last repetition of what the graph puts out. -/
def TestHarnessArgs.expected (p : Kernel) (graph : AieGraph p) (mode : TestMode)
    (args : List TestHarnessArgs) (a : TestHarnessArgs) : List UInt8 :=
  (slice ((a.repetition.toNat - 1) * (a.size / p.word_size)) (a.size / p.word_size)
    (graph.out (streams p mode args) a.fromChn)).flatten

/-- The user's buffers hold what was asked for, where the buffer of the channel can hold it. -/
def Computed (p : Platform) (graph : AieGraph p.toKernel) (mode : TestMode)
    (args : List TestHarnessArgs) : Prop :=
  ∀ a ∈ args, a.IsFrom p.toSetup → 1 ≤ a.repetition.toNat →
    (mode = .PERF_MODE → a.size ≤ p.bufBytes) →
    a.data.bytes.take a.size = a.expected p graph mode args

/-- What the host relies on: the kernel it was compiled for, a channel for each argument, room for
what comes back, and in performance mode numbers the kernel can hold. -/
structure Posed (p : Platform) (t : Transaction) (args : List TestHarnessArgs) : Prop where
  setup_eq : t.setup = p.toSetup
  distinct : DistinctChannels args
  buffer_le : ∀ a ∈ args, a.IsFrom p.toSetup → a.size ≤ a.data.bytes.length
  perf : t.mode = .PERF_MODE → Addressable p
    ∧ ∀ a ∈ args, a.size / p.word_size < 2 ^ 32 ∧ a.repetition.toNat < 2 ^ 32

section Streams

variable {p : Platform} {mode : TestMode} {args : List TestHarnessArgs} {a : TestHarnessArgs}
  {c : Nat}

theorem idx_eq_of_toChn {a' : TestHarnessArgs} (h : a.toChn = a'.toChn) : a.idx = a'.idx :=
  UInt16.toNat_inj.mp h

theorem eq_of_idx (hdistinct : DistinctChannels args) {a' : TestHarnessArgs} (ha : a ∈ args)
    (ha' : a' ∈ args) (h : a.idx = a'.idx) : a = a' :=
  List.inj_on_of_nodup_map hdistinct ha ha' h

theorem streams_of_mem (hdistinct : DistinctChannels args) (ha : a ∈ args)
    (hato : a.IsTo p.toSetup) :
    streams p mode args a.toChn = a.stream p mode := by
  unfold streams
  cases hfind : args.find? fun a' => a'.IsTo p.toSetup ∧ a'.toChn = a.toChn with
  | none =>
      have := List.find?_eq_none.mp hfind a ha
      exact absurd (decide_eq_true ⟨hato, rfl⟩) this
  | some a' =>
      have hmatch := of_decide_eq_true (List.find?_eq_some_iff_append.mp hfind).1
      obtain rfl : a' = a := eq_of_idx hdistinct (List.mem_of_find?_eq_some hfind) ha
        (idx_eq_of_toChn hmatch.2)
      rfl

theorem streams_of_unlisted (h : ∀ a ∈ args, a.IsTo p.toSetup → a.toChn ≠ c) :
    streams p mode args c = [] := by
  have hnone : (args.find? fun a => a.IsTo p.toSetup ∧ a.toChn = c) = none := by
    refine List.find?_eq_none.mpr fun a ha hmatch => ?_
    have hmatch := of_decide_eq_true hmatch
    exact h a ha hmatch.1 hmatch.2
  unfold streams
  rw [hnone]

end Streams

def Transaction.withResults (t : Transaction) (b : PlBuffers) : Transaction :=
  { t with from_aie_ptr := b.from_aie, perf_ptr := b.perf }

/-! ### What `handleOutputs` leaves alone -/

/-- Only the data of an argument changes, and only where it comes from the AIE. -/
structure Rewritten (p : Setup) (a a' : TestHarnessArgs) : Prop where
  exists_data : ∃ data, a' = { a with data }
  eq_of_not_isFrom : ¬ a.IsFrom p → a' = a

theorem Rewritten.idx_eq {p : Setup} {a a' : TestHarnessArgs} (h : Rewritten p a a') :
    a'.idx = a.idx := by
  obtain ⟨data, rfl⟩ := h.exists_data
  rfl

theorem Rewritten.refl (p : Setup) (a : TestHarnessArgs) : Rewritten p a a :=
  ⟨⟨a.data, rfl⟩, fun _ => rfl⟩

section Outputs

variable {t t' : Transaction} {a a' : TestHarnessArgs}
  {perf_map perf_map' : Nat → Option (Nat × Nat)}

theorem outputTo_kept (h : t.outputTo (a, perf_map) = .ok (a', perf_map')) : a' = a := by
  simp only [outputTo] at h
  split at h
  · obtain ⟨counters, -, heq⟩ := bind_eq_ok.mp h
    exact (Prod.mk.inj (Except.ok.inj heq)).1.symm
  · exact (Prod.mk.inj (Except.ok.inj h)).1.symm

theorem outputFrom_kept (h : t.outputFrom (a, perf_map) = .ok (a', perf_map')) :
    Rewritten t.setup a a' := by
  simp only [outputFrom] at h
  split at h
  · next hfrom =>
    obtain ⟨offset, -, h⟩ := bind_eq_ok.mp h
    obtain ⟨data, -, h⟩ := bind_eq_ok.mp h
    obtain ⟨counters, -, heq⟩ := bind_eq_ok.mp h
    obtain rfl := (Prod.mk.inj (Except.ok.inj heq)).1
    exact ⟨⟨data, rfl⟩, fun hnot => absurd hfrom hnot⟩
  · obtain rfl := (Prod.mk.inj (Except.ok.inj h)).1
    exact .refl t.setup _

theorem outputArgument_kept (h : t.outputArgument perf_map a = .ok (a', perf_map')) :
    Rewritten t.setup a a' := by
  unfold outputArgument at h
  split at h
  · obtain ⟨⟨a₁, perf₁⟩, hto, hfrom⟩ := bind_eq_ok.mp h
    obtain rfl := outputTo_kept hto
    exact outputFrom_kept hfrom
  · obtain ⟨⟨a₁, perf₁⟩, hfrom, hto⟩ := bind_eq_ok.mp h
    obtain rfl := outputTo_kept hto
    exact outputFrom_kept hfrom

theorem handleOutputs_kept (h : t.handleOutputs = .ok t') :
    List.Forall₂ (Rewritten t.setup) t.args_rec t'.args_rec := by
  obtain ⟨⟨args', perf'⟩, hloop, heq⟩ := bind_eq_ok.mp h
  obtain rfl := Except.ok.inj heq
  refine foldlM_invariant (fun done s => List.Forall₂ (Rewritten t.setup) done s.1) .nil ?_ hloop
  rintro done x rest ⟨args', perf_map⟩ s' - hI hpass
  obtain ⟨⟨a', perf'⟩, hout, heq⟩ := bind_eq_ok.mp hpass
  obtain rfl := Except.ok.inj heq
  exact List.rel_append hI (.cons (outputArgument_kept hout) .nil)

/-- What the graph receives is not in the buffers that are overwritten. -/
theorem streams_eq_of_kept {p : Platform} {mode : TestMode} {args args' : List TestHarnessArgs}
    (h : List.Forall₂ (Rewritten p.toSetup) args args') (c : Nat) :
    streams p mode args' c = streams p mode args c := by
  unfold streams
  suffices hfind : (args'.find? fun a => a.IsTo p.toSetup ∧ a.toChn = c)
      = args.find? fun a => a.IsTo p.toSetup ∧ a.toChn = c by rw [hfind]
  induction h with
  | nil => rfl
  | @cons a a' args args' hkept _ ih =>
      have hiff : (a'.IsTo p.toSetup ∧ a'.toChn = c) ↔ a.IsTo p.toSetup ∧ a.toChn = c := by
        unfold TestHarnessArgs.IsTo TestHarnessArgs.toChn
        rw [hkept.idx_eq]
      by_cases hto : a.IsTo p.toSetup ∧ a.toChn = c
      · obtain rfl : a' = a := hkept.eq_of_not_isFrom fun hfrom => hto.1.not_isFrom hfrom
        simp only [List.find?_cons, decide_eq_true hto]
      · have hto' : ¬ (a'.IsTo p.toSetup ∧ a'.toChn = c) := fun h => hto (hiff.mp h)
        simp only [List.find?_cons, decide_eq_false hto, decide_eq_false hto', ih]

theorem expected_eq_of_kept {p : Platform} {graph : AieGraph p.toKernel} {mode : TestMode}
    {args args' : List TestHarnessArgs} (h : List.Forall₂ (Rewritten p.toSetup) args args')
    (hkept : Rewritten p.toSetup a a') :
    a'.expected p graph mode args' = a.expected p graph mode args := by
  obtain ⟨data, rfl⟩ := hkept.exists_data
  have hstreams : streams p mode args' = streams p mode args := funext (streams_eq_of_kept h)
  unfold TestHarnessArgs.expected
  rw [hstreams]
  rfl

theorem exists_left_of_forall₂ {α β : Type} {R : α → β → Prop} {l : List α} {l' : List β}
    (h : List.Forall₂ R l l') {b : β} (hb : b ∈ l') : ∃ a, R a b := by
  induction h with
  | nil => cases hb
  | @cons a b' _ _ hab _ ih =>
      rcases List.mem_cons.mp hb with rfl | hb
      · exact ⟨a, hab⟩
      · exact ih hb

/-- Stated for the arguments as the user gave them. -/
theorem computed_of_forall₂ {p : Platform} {graph : AieGraph p.toKernel} {mode : TestMode}
    {args args' : List TestHarnessArgs} (h : List.Forall₂ (Rewritten p.toSetup) args args')
    (hall : List.Forall₂ (fun a a' => a.IsFrom p.toSetup → 1 ≤ a.repetition.toNat →
      (mode = .PERF_MODE → a.size ≤ p.bufBytes) →
      a'.data.bytes.take a.size = a.expected p graph mode args) args args') :
    Computed p graph mode args' := by
  intro a' ha'
  obtain ⟨a, hkept, hout⟩ :=
    exists_left_of_forall₂ (List.Forall₂.mp (fun _ _ => And.intro) h hall) ha'
  have hexpected : a'.expected p graph mode args' = a.expected p graph mode args :=
    expected_eq_of_kept h hkept
  obtain ⟨data, rfl⟩ := hkept.exists_data
  rw [hexpected]
  exact hout

end Outputs

end AieTestHarness
