import AieTestHarness.Proof.Config

/-!
# What an accepted argument list is

`handleInputs` starts the same way in both modes: the tables are reset, every argument is checked
and recorded, and the mode goes into the first configuration word.
-/

namespace AieTestHarness

open Slices Loops Transaction

variable {p : Platform}

/-! ### Arguments and their channels -/

namespace TestHarnessArgs

variable {a b : TestHarnessArgs}

theorem isTo_iff : a.IsTo p.toSetup ↔ a.idx.toNat < p.num_channels := by
  have := p.channels_le
  unfold IsTo PLIO_01_TO_AIE
  rw [u32_of_lt (by omega)]
  omega

theorem isFrom_iff :
    a.IsFrom p.toSetup ↔ 36 ≤ a.idx.toNat ∧ a.idx.toNat < 36 + p.num_channels := by
  have := p.channels_le
  unfold IsFrom PLIO_01_FROM_AIE
  rw [u32_of_lt (by omega)]

theorem IsTo.not_isFrom (h : a.IsTo p.toSetup) : ¬ a.IsFrom p.toSetup := by
  have := p.channels_le
  rw [isTo_iff] at h
  rw [isFrom_iff]
  omega

theorem IsTo.toChn_lt (h : a.IsTo p.toSetup) : a.toChn < p.num_channels := by
  rw [isTo_iff] at h
  exact h

theorem IsFrom.fromChn_lt (h : a.IsFrom p.toSetup) : a.fromChn < p.num_channels := by
  rw [isFrom_iff] at h
  unfold fromChn PLIO_01_FROM_AIE
  omega

theorem toChn_ne (hne : a.idx ≠ b.idx) : a.toChn ≠ b.toChn := by
  intro h
  exact hne (UInt16.toNat_inj.mp h)

theorem fromChn_ne (ha : a.IsFrom p.toSetup) (hb : b.IsFrom p.toSetup) (hne : a.idx ≠ b.idx) :
    a.fromChn ≠ b.fromChn := by
  rw [isFrom_iff] at ha hb
  intro h
  refine hne (UInt16.toNat_inj.mp ?_)
  unfold fromChn PLIO_01_FROM_AIE at h
  omega

end TestHarnessArgs

def DistinctChannels (args : List TestHarnessArgs) : Prop :=
  (args.map (·.idx)).Nodup

instance : DecidablePred DistinctChannels := fun _ => inferInstanceAs (Decidable (List.Nodup _))

theorem DistinctChannels.ne_of_mem {done rest : List TestHarnessArgs} {x a : TestHarnessArgs}
    (h : DistinctChannels (done ++ x :: rest)) (ha : a ∈ done) : a.idx ≠ x.idx := by
  simp only [DistinctChannels, List.map_append, List.map_cons] at h
  exact (List.nodup_append.mp h).2.2 _ (List.mem_map_of_mem ha) _ (by simp)

/-! ### The common prefix of `handleInputs` -/

/-- An argument `check_arguments` lets through. -/
def TestHarnessArgs.Checked (p : Setup) (a : TestHarnessArgs) : Prop :=
  (a.IsTo p ∨ a.IsFrom p) ∧ a.size % p.word_size = 0

theorem checked_of_checkArgument {p : Setup} {a : TestHarnessArgs}
    (h : checkArgument p a = .ok ()) : a.Checked p := by
  unfold checkArgument at h
  split at h
  · rename_i hchannel
    split at h
    · cases h
    · rename_i hsize
      exact ⟨hchannel, not_not.mp hsize⟩
  · cases h

def Transaction.prepared (t : Transaction) (args : List TestHarnessArgs) : Transaction :=
  { t.reset with args_rec := args, cfg_ptr := t.reset.cfg_ptr.set 0 t.mode.toNat }

theorem checkArguments_spec {t t' : Transaction} {args : List TestHarnessArgs}
    (h : t.checkArguments args = .ok t') :
    t' = { t with args_rec := t.args_rec ++ args } ∧ ∀ a ∈ args, a.Checked t.setup := by
  refine foldlM_invariant (I := fun done s =>
      s = { t with args_rec := t.args_rec ++ done } ∧ ∀ a ∈ done, a.Checked t.setup)
    ⟨by simp, by simp⟩ ?_ h
  rintro done x rest s s' - ⟨rfl, hchecked⟩ hx
  simp only [bind_eq_ok, pure, Except.pure, Except.ok.injEq] at hx
  obtain ⟨⟨⟩, hcheck, rfl⟩ := hx
  refine ⟨by simp, ?_⟩
  intro a ha
  rcases List.mem_append.mp ha with hold | hnew
  · exact hchecked a hold
  · obtain rfl : a = x := by simpa using hnew
    exact checked_of_checkArgument hcheck

theorem handleInputs_eq_ok {t t' : Transaction} {args : List TestHarnessArgs}
    (h : t.handleInputs args = .ok t') :
    (∀ a ∈ args, a.Checked t.setup) ∧
      ∃ t₁, (t.prepared args).handleModeInputs = .ok t₁ ∧
        t' = { t₁ with status := .TRANSACTION_READY } := by
  simp only [handleInputs, bind_eq_ok, setAt_eq_ok, pure, Except.pure, Except.ok.injEq] at h
  obtain ⟨t₀, hcheck, _, ⟨-, rfl⟩, t₁, hmode, rfl⟩ := h
  obtain ⟨rfl, hchecked⟩ := checkArguments_spec hcheck
  exact ⟨hchecked, t₁, hmode, rfl⟩

section Prepared

variable (t : Transaction) (args : List TestHarnessArgs)

@[simp]
theorem prepared_setup : (t.prepared args).setup = t.setup := rfl

@[simp]
theorem prepared_mode : (t.prepared args).mode = t.mode := rfl

@[simp]
theorem prepared_args_rec : (t.prepared args).args_rec = args := rfl

@[simp]
theorem prepared_result_valid : (t.prepared args).result_valid = true := rfl

variable {t} (hsetup : t.setup = p.toSetup)
include hsetup

theorem prepared_cfg_ptr : (t.prepared args).cfg_ptr
    = (List.replicate (p.num_channels * 8 + 1) 0).set 0 t.mode.toNat := by
  have hN := p.channels_le
  simp only [prepared, reset, hsetup]
  rw [u32_of_lt (by omega), Nat.mul_assoc]

theorem prepared_perf_length : (t.prepared args).perf_ptr.length = p.num_channels * 4 := by
  have hN := p.channels_le
  simp only [prepared, reset, hsetup, List.length_replicate]
  rw [u32_of_lt (by omega)]

theorem prepared_offset_length :
    (t.prepared args).from_mem_word_offset.length = p.num_channels := by
  simp [prepared, reset, hsetup]

theorem prepared_cfg_length : (t.prepared args).cfg_ptr.length = p.num_channels * 8 + 1 := by
  rw [prepared_cfg_ptr args hsetup, List.length_set, List.length_replicate]

theorem prepared_cfg_mode : (t.prepared args).cfg_ptr.getD 0 0 = t.mode.toNat := by
  rw [prepared_cfg_ptr args hsetup, List.getD_eq_getElem?_getD, List.getElem?_set_self (by simp),
    Option.getD_some]

theorem prepared_loadChannel (k c : Nat) :
    loadChannel p (t.prepared args).cfg_ptr k c = ⟨t.mode, 0, 0, 0, 0⟩ := by
  rw [prepared_cfg_ptr args hsetup, loadChannel_set_zero _ _ (by simp), loadChannel_replicate]
  cases t.mode <;> rfl

end Prepared

def cfgMode (cfg : List Nat) : TestMode := if cfg.getD 0 0 = 0 then .FUNC_MODE else .PERF_MODE

theorem cfgMode_prepared {t : Transaction} (args : List TestHarnessArgs)
    (hsetup : t.setup = p.toSetup) : cfgMode (t.prepared args).cfg_ptr = t.mode := by
  unfold cfgMode
  rw [prepared_cfg_mode args hsetup]
  cases t.mode <;> rfl

/-- Within the limit of the manager no buffer is larger than the limit. -/
theorem buffers_le_of_memoryUsage {t : Transaction} (limit : Nat)
    (hto : t.to_aie_ptr.length < 2 ^ 62) (hfrom : t.from_aie_ptr.length < 2 ^ 62)
    (hcfg : t.cfg_ptr.length ≤ 2 ^ 32) (hperf : t.perf_ptr.length ≤ 2 ^ 32)
    (h : t.getMemoryUsage ≤ limit) :
    t.to_aie_ptr.length ≤ limit ∧ t.from_aie_ptr.length ≤ limit := by
  unfold getMemoryUsage at h
  rw [u64_of_lt (by omega)] at h
  omega

/-! ### A small setup -/

/-- One channel of 32-bit words, streams and memory alike. -/
def solePlatform : Platform where
  num_channels := 1
  word_size := 4
  depth := 16
  memWidth := 4
  channels_le := by decide
  word_pos := by decide
  memWidth_pos := by decide
  memWidth_lt := by decide
  stream_dvd := by decide
  ratio_le := by decide
  depth_pos := by decide
  depth_dvd := by decide

def soleArgument (n : Nat) (h : 4 * n < 2 ^ 57) : TestHarnessArgs where
  idx := 0
  size_in_byte := UInt64.ofNat (4 * n)
  repetition := 1
  delay := 0
  data := ⟨List.replicate (4 * n) 0, by rw [List.length_replicate]; exact h⟩

def soleOutput (n : Nat) (h : 4 * n < 2 ^ 57) : TestHarnessArgs :=
  { soleArgument n h with idx := 36 }

theorem word_lt : 4 * 1 < 2 ^ 57 := by decide

def soleTransaction (mode : TestMode) : Transaction := .new 0 mode 1 4 16 4 0

end AieTestHarness
