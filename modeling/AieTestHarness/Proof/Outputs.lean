import AieTestHarness.Proof.Inputs
import Mathlib.Data.List.Forall2

/-!
# What `handleOutputs` leaves

Both modes copy, for each argument from the AIE, bytes of `from_aie_ptr` into the user's buffer, and
read the counters of every argument. Nothing fails as long as the offset of each argument is
recorded and its bytes lie inside both buffers.
-/

namespace AieTestHarness

open Slices Loops Transaction

variable {p : Platform} {t : Transaction}

theorem forall₂_imp_of_mem {α β : Type} {R S : α → β → Prop} {l : List α} {l' : List β}
    (h : List.Forall₂ R l l') (himp : ∀ a ∈ l, ∀ b, R a b → S a b) : List.Forall₂ S l l' := by
  induction h with
  | nil => exact .nil
  | cons hab _ ih =>
      exact .cons (himp _ (by simp) _ hab) (ih fun a ha => himp a (List.mem_cons_of_mem _ ha))

structure Output (t : Transaction) (a a' : TestHarnessArgs) : Prop where
  idx_eq : a'.idx = a.idx
  size_eq : a'.size_in_byte = a.size_in_byte
  eq_of_not_isFrom : ¬ a.IsFrom t.setup → a' = a
  bytes_eq : a.IsFrom t.setup → ∃ off, t.from_mem_word_offset[a.fromChn]? = some off ∧
    a'.data.bytes = overwrite a.data.bytes 0
      (slice (off * t.setup.memWidth) (outputBytes t.setup t.mode a) t.from_aie_ptr)

structure OutputReady (t : Transaction) (a : TestHarnessArgs) (off : Nat) : Prop where
  offset_eq : t.from_mem_word_offset[a.fromChn]? = some off
  offset_lt : off * t.setup.memWidth < 2 ^ 32
  source_le : off * t.setup.memWidth + outputBytes t.setup t.mode a ≤ t.from_aie_ptr.length
  buffer_le : outputBytes t.setup t.mode a ≤ a.data.bytes.length

theorem readPerf_ok {perf : List Nat} (hperf : perf.length = p.num_channels * 4) {k chn : Nat}
    (hk : k ≤ 2) (hchn : chn < p.num_channels) : ∃ v, readPerf p.toSetup perf k chn = .ok v := by
  have hN := p.channels_le
  have hle : ∀ j, j ≤ 3 → chn + j * p.num_channels < perf.length := by
    intro j hj
    have : j * p.num_channels ≤ 3 * p.num_channels := Nat.mul_le_mul_right _ hj
    omega
  have hget : ∀ j, j ≤ 3 → ∃ v, getAt perf (u32 (chn + j * p.num_channels)) = .ok v := by
    intro j hj
    have hlt := hle j hj
    rw [u32_of_lt (by omega)]
    exact ⟨_, getAt_eq_ok.mpr (List.getElem?_eq_getElem hlt)⟩
  obtain ⟨first, hfirst⟩ := hget k (by omega)
  obtain ⟨last, hlast⟩ := hget (k + 1) (by omega)
  exact ⟨(first, last), by rw [readPerf, hfirst, bind_ok, hlast, bind_ok]; rfl⟩

theorem outputTo_ok (hsetup : t.setup = p.toSetup) (hperf : t.perf_ptr.length = p.num_channels * 4)
    (a : TestHarnessArgs) (perf_map : Nat → Option (Nat × Nat)) :
    ∃ perf_map', t.outputTo (a, perf_map) = .ok (a, perf_map') := by
  simp only [outputTo, hsetup]
  by_cases hto : a.IsTo p.toSetup
  · obtain ⟨v, hv⟩ := readPerf_ok hperf (show 0 ≤ 2 by omega) hto.toChn_lt
    exact ⟨_, by rw [if_pos hto, hv]; rfl⟩
  · exact ⟨perf_map, if_neg hto⟩

theorem copyOut_ok {b : HostBuffer} {src : List UInt8} {pos n : Nat} (hsrc : pos + n ≤ src.length)
    (hdst : n ≤ b.bytes.length) :
    ∃ b', copyOut b src pos n = .ok b' ∧ b'.bytes = overwrite b.bytes 0 (slice pos n src) :=
  ⟨_, dif_pos ⟨hsrc, hdst⟩, rfl⟩

theorem outputFrom_ok (hsetup : t.setup = p.toSetup)
    (hperf : t.perf_ptr.length = p.num_channels * 4) (a : TestHarnessArgs)
    (perf_map : Nat → Option (Nat × Nat))
    (hready : a.IsFrom t.setup → ∃ off, OutputReady t a off) :
    ∃ a' perf_map', t.outputFrom (a, perf_map) = .ok (a', perf_map') ∧ Output t a a' := by
  simp only [outputFrom]
  by_cases hfrom : a.IsFrom t.setup
  · obtain ⟨off, hoff⟩ := hready hfrom
    obtain ⟨data, hcopy, hbytes⟩ := copyOut_ok hoff.source_le hoff.buffer_le
    rw [← u32_of_lt hoff.offset_lt] at hcopy
    have hchn : a.fromChn < p.num_channels := (hsetup ▸ hfrom : a.IsFrom p.toSetup).fromChn_lt
    obtain ⟨v, hv⟩ := readPerf_ok hperf (show 2 ≤ 2 by omega) hchn
    rw [← hsetup] at hv
    refine ⟨{ a with data }, Function.update perf_map a.idx.toNat (some v), ?_, ?_⟩
    · rw [if_pos hfrom, getAt_eq_ok.mpr hoff.offset_eq, bind_ok, hcopy, bind_ok, hv, bind_ok]
      rfl
    · exact ⟨rfl, rfl, fun h => absurd hfrom h, fun _ => ⟨off, hoff.offset_eq, hbytes⟩⟩
  · exact ⟨a, perf_map, if_neg hfrom, rfl, rfl, fun _ => rfl, fun h => absurd h hfrom⟩

theorem outputArgument_ok (hsetup : t.setup = p.toSetup)
    (hperf : t.perf_ptr.length = p.num_channels * 4) (a : TestHarnessArgs)
    (perf_map : Nat → Option (Nat × Nat))
    (hready : a.IsFrom t.setup → ∃ off, OutputReady t a off) :
    ∃ a' perf_map', outputArgument t perf_map a = .ok (a', perf_map') ∧ Output t a a' := by
  unfold outputArgument
  split
  · obtain ⟨perf₁, hto⟩ := outputTo_ok hsetup hperf a perf_map
    obtain ⟨a', perf', hfrom, hout⟩ := outputFrom_ok hsetup hperf a perf₁ hready
    exact ⟨a', perf', by rw [hto, bind_ok, hfrom], hout⟩
  · obtain ⟨a', perf₁, hfrom, hout⟩ := outputFrom_ok hsetup hperf a perf_map hready
    obtain ⟨perf', hto⟩ := outputTo_ok hsetup hperf a' perf₁
    exact ⟨a', perf', by rw [hfrom, bind_ok, hto], hout⟩

theorem handleOutputs_ok (hsetup : t.setup = p.toSetup)
    (hperf : t.perf_ptr.length = p.num_channels * 4)
    (hready : ∀ a ∈ t.args_rec, a.IsFrom t.setup → ∃ off, OutputReady t a off) :
    ∃ t', t.handleOutputs = .ok t' ∧ t'.status = t.status ∧ t'.result_valid = t.result_valid ∧
      List.Forall₂ (Output t) t.args_rec t'.args_rec := by
  obtain ⟨⟨args', perf'⟩, hloop, hI⟩ := foldlM_ok (f := fun s a => do
      let out ← outputArgument t s.2 a
      return (s.1 ++ [out.1], out.2)) (l := t.args_rec)
    (b := (([] : List TestHarnessArgs), t.perf_map))
    (fun done s => List.Forall₂ (Output t) done s.1) .nil (by
      rintro done x rest ⟨args', perf_map⟩ hargs hI
      obtain ⟨a', perf', hout, houtput⟩ := outputArgument_ok hsetup hperf x perf_map
        (hready x (by rw [hargs]; simp))
      refine ⟨(args' ++ [a'], perf'), by simp only [hout, bind_ok]; rfl, ?_⟩
      exact List.rel_append hI (.cons houtput .nil))
  exact ⟨{ t with args_rec := args', perf_map := perf' }.clearData,
    by rw [handleOutputs, hloop]; rfl, rfl, rfl, hI⟩

/-- `handleOutputs` does not look at the status. -/
theorem handleOutputs_status {t' : Transaction} (status : TransactionStatus)
    (h : t.handleOutputs = .ok t') :
    { t with status }.handleOutputs = .ok { t' with status } := by
  simp only [handleOutputs, bind_eq_ok, pure, Except.pure, Except.ok.injEq] at h
  obtain ⟨s, hloop, rfl⟩ := h
  exact bind_eq_ok.mpr ⟨s, hloop, rfl⟩

end AieTestHarness
