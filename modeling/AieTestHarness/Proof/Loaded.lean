import AieTestHarness.Kernel.Card
import AieTestHarness.Proof.Calls
import AieTestHarness.Proof.HarnessPerf

/-!
# A transaction on its way

What is sent of a transaction is what `handleInputs` has made of the arguments: nothing writes its
configuration and its data to the AIE any more, and the memory for its results is allocated and
zero. Status and timeout change while it waits, and `handleOutputs` reads neither.
-/

namespace AieTestHarness

open Slices Loops Transaction

/-! ### What `handleInputs` allocates -/

/-- A pass of one of the loops leaves the mode and the memory for the results alone. -/
structure Allocated (t t' : Transaction) : Prop where
  mode_eq : t'.mode = t.mode
  perf_eq : t'.perf_ptr = t.perf_ptr
  from_aie_eq : t'.from_aie_ptr = t.from_aie_ptr

theorem Allocated.refl (t : Transaction) : Allocated t t := ⟨rfl, rfl, rfl⟩

theorem Allocated.trans {t t' t'' : Transaction} (h : Allocated t t') (h' : Allocated t' t'') :
    Allocated t t'' :=
  ⟨h'.mode_eq.trans h.mode_eq, h'.perf_eq.trans h.perf_eq, h'.from_aie_eq.trans h.from_aie_eq⟩

theorem funcArgument_allocated {p : Setup} {s s' : FuncLoop} {a : TestHarnessArgs}
    (h : funcArgument p s a = .ok s') : Allocated s.trans s'.trans := by
  unfold funcArgument at h
  split at h
  · simp only [bind_eq_ok, pure, Except.pure, Except.ok.injEq] at h
    obtain ⟨cfg, -, to_aie, -, rfl⟩ := h
    exact ⟨rfl, rfl, rfl⟩
  · split at h
    · simp only [bind_eq_ok, pure, Except.pure, Except.ok.injEq] at h
      obtain ⟨cfg, -, offsets, -, rfl⟩ := h
      exact ⟨rfl, rfl, rfl⟩
    · cases h
      exact .refl s.trans

theorem perfArgument_allocated {p : Setup} {t t' : Transaction} {a : TestHarnessArgs}
    (h : perfArgument p t a = .ok t') : Allocated t t' := by
  unfold perfArgument at h
  split at h
  · simp only [bind_eq_ok, pure, Except.pure, Except.ok.injEq] at h
    obtain ⟨to_aie, -, cfg, -, rfl⟩ := h
    exact ⟨rfl, rfl, rfl⟩
  · split at h
    · simp only [bind_eq_ok, pure, Except.pure, Except.ok.injEq] at h
      obtain ⟨cfg, -, offsets, -, rfl⟩ := h
      exact ⟨rfl, rfl, rfl⟩
    · cases h
      exact .refl t

theorem handleModeInputs_allocated {t t' : Transaction} (h : t.handleModeInputs = .ok t') :
    ∃ to_aie_ptr n, Allocated { t with to_aie_ptr, from_aie_ptr := List.replicate n 0 } t' := by
  unfold handleModeInputs at h
  split at h
  · simp only [handleFuncInputs, bind_eq_ok, pure, Except.pure, Except.ok.injEq] at h
    obtain ⟨totals, -, to_aie, -, from_aie, hfrom, s, hloop, rfl⟩ := h
    obtain ⟨-, rfl⟩ := resize_eq_ok.mp hfrom
    refine ⟨to_aie, totals.2, foldlM_invariant (fun _ s => Allocated { t with
      to_aie_ptr := to_aie
      from_aie_ptr := List.replicate totals.2 0 } s.trans) ⟨rfl, rfl, rfl⟩ ?_ hloop⟩
    intro done a rest s s' _ hI hpass
    exact hI.trans (funcArgument_allocated hpass)
  · simp only [handlePerfInputs] at h
    split at h
    · cases h
    · split at h
      · cases h
      · simp only [bind_eq_ok] at h
        obtain ⟨to_aie, -, from_aie, hfrom, hloop⟩ := h
        obtain ⟨-, rfl⟩ := resize_eq_ok.mp hfrom
        refine ⟨to_aie, _, foldlM_invariant (fun _ t' => Allocated _ t') (.refl _) ?_ hloop⟩
        intro done a rest s s' _ hI hpass
        exact hI.trans (perfArgument_allocated hpass)

theorem handleInputs_mode {t t' : Transaction} {args : List TestHarnessArgs}
    (h : t.handleInputs args = .ok t') : t'.mode = t.mode := by
  obtain ⟨-, t₁, hmode, rfl⟩ := handleInputs_eq_ok h
  obtain ⟨to_aie_ptr, n, halloc⟩ := handleModeInputs_allocated hmode
  exact halloc.mode_eq

theorem handleOutputs_mode {t t' : Transaction} (h : t.handleOutputs = .ok t') :
    t'.mode = t.mode := by
  obtain ⟨out, -, heq⟩ := bind_eq_ok.mp h
  obtain rfl := Except.ok.inj heq
  rfl

/-- The run finds zeros where it writes. -/
theorem handleInputs_fresh {t t' : Transaction} {args : List TestHarnessArgs}
    (h : t.handleInputs args = .ok t') : t'.buffers.fresh = t'.buffers := by
  obtain ⟨-, t₁, hmode, rfl⟩ := handleInputs_eq_ok h
  obtain ⟨to_aie_ptr, n, halloc⟩ := handleModeInputs_allocated hmode
  have hperf : t₁.perf_ptr = List.replicate (u32 (t.setup.num_channels * 4)) 0 := halloc.perf_eq
  have hfrom : t₁.from_aie_ptr = List.replicate n 0 := halloc.from_aie_eq
  simp only [PlBuffers.fresh, buffers, hperf, hfrom, List.length_replicate]

/-! ### What a waiting transaction may differ in -/

/-- The transactions agree, but for status and timeout. -/
def Bears (t t₁ : Transaction) : Prop := ∃ status mTimeOut, t = { t₁ with status, mTimeOut }

namespace Bears

variable {t t₁ t' : Transaction}

theorem refl (t : Transaction) : Bears t t := ⟨t.status, t.mTimeOut, rfl⟩

theorem setStatus (h : Bears t t₁) (status : TransactionStatus) : Bears { t with status } t₁ := by
  obtain ⟨status', mTimeOut, rfl⟩ := h
  exact ⟨status, mTimeOut, rfl⟩

theorem setTimeOut (h : Bears t t₁) (mTimeOut : Nat) : Bears { t with mTimeOut } t₁ := by
  obtain ⟨status, mTimeOut', rfl⟩ := h
  exact ⟨status, mTimeOut, rfl⟩

theorem setFromAie (h : Bears t t₁) (from_aie_ptr : List UInt8) :
    Bears { t with from_aie_ptr } { t₁ with from_aie_ptr } := by
  obtain ⟨status, mTimeOut, rfl⟩ := h
  exact ⟨status, mTimeOut, rfl⟩

theorem setPerf (h : Bears t t₁) (perf_ptr : List Nat) :
    Bears { t with perf_ptr } { t₁ with perf_ptr } := by
  obtain ⟨status, mTimeOut, rfl⟩ := h
  exact ⟨status, mTimeOut, rfl⟩

theorem buffers_eq (h : Bears t t₁) : t.buffers = t₁.buffers := by
  obtain ⟨status, mTimeOut, rfl⟩ := h
  rfl

theorem mode_eq (h : Bears t t₁) : t.mode = t₁.mode := by
  obtain ⟨status, mTimeOut, rfl⟩ := h
  rfl

theorem args_eq (h : Bears t t₁) : t.args_rec = t₁.args_rec := by
  obtain ⟨status, mTimeOut, rfl⟩ := h
  rfl

theorem setup_eq (h : Bears t t₁) : t.setup = t₁.setup := by
  obtain ⟨status, mTimeOut, rfl⟩ := h
  rfl

theorem perf_map_eq (h : Bears t t₁) : t.perf_map = t₁.perf_map := by
  obtain ⟨status, mTimeOut, rfl⟩ := h
  rfl

theorem handleOutputs (h : Bears t t₁) (hout : t.handleOutputs = .ok t') :
    ∃ t₁', t₁.handleOutputs = .ok t₁' ∧ Bears t' t₁' := by
  obtain ⟨status, mTimeOut, rfl⟩ := h
  obtain ⟨out, hloop, heq⟩ := bind_eq_ok.mp hout
  obtain rfl := Except.ok.inj heq
  exact ⟨_, bind_eq_ok.mpr ⟨out, hloop, rfl⟩, status, mTimeOut, rfl⟩

end Bears

end AieTestHarness
