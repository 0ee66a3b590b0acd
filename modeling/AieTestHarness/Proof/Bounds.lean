import AieTestHarness.Proof.FuncLayout
import AieTestHarness.Proof.PerfLayout
import AieTestHarness.Proof.Outputs

/-!
# What stays inside the buffers

The functional mode reserves memory for each argument, but keeps one place for each channel, that of
the last argument to name it. The outputs of an earlier argument are read from there as well, and
those of a long one may not end where the memory does. The performance mode gives every channel the
same room.
-/

namespace AieTestHarness

open Slices Loops Transaction

variable {p : Platform}

/-- The computation throws nothing: it returns, or leaves an object. -/
def Accepts {α : Type} (x : Except Exn α) : Prop := ∀ e, x = .error e → e = .undefined

/-- Neither `handleInputs` nor `handleOutputs` leaves a buffer, whatever the PL writes in
between. -/
def InBounds (t : Transaction) (args : List TestHarnessArgs) : Prop :=
  t.handleInputs args ≠ .error .undefined
    ∧ ∀ t' from_aie_ptr perf_ptr, t.handleInputs args = .ok t' →
      from_aie_ptr.length = t'.from_aie_ptr.length → perf_ptr.length = t'.perf_ptr.length →
      { t' with from_aie_ptr, perf_ptr }.handleOutputs ≠ .error .undefined

/-- From the place of the last argument that names a channel, there is room in `n` bytes for each
argument that names it. -/
def FromFits (p : Platform) (args : List TestHarnessArgs) (n : Nat) : Prop :=
  ∀ before b after a, args = before ++ b :: after → (∀ c ∈ after, c.idx ≠ b.idx) →
    a ∈ args → a.idx = b.idx → a.IsFrom p.toSetup →
    u32 (wordsOf p (·.IsFrom p.toSetup) before * p.memWidth) + a.size ≤ n

/-- A `size_t` counts the inputs, and the outputs are in what is reserved for them. -/
structure Fits (p : Platform) (args : List TestHarnessArgs) : Prop where
  to_lt : wordsOf p (·.IsTo p.toSetup) args * p.memWidth < 2 ^ 64
  from_le : FromFits p args (u64 (wordsOf p (·.IsFrom p.toSetup) args * p.memWidth))

theorem Accepts.bind {α β : Type} {x : Except Exn α} {f : α → Except Exn β} (h : Accepts (x >>= f))
    (hx : ∀ e, x = .error e → e ≠ .undefined) : ∃ a, x = .ok a ∧ (x >>= f) = f a := by
  cases x with
  | ok a => exact ⟨a, rfl, rfl⟩
  | error e => exact absurd (h e rfl) (hx e rfl)

/-- What is accepted and leaves no object returns. -/
theorem Accepts.exists_ok {α : Type} {x : Except Exn α} (h : Accepts x)
    (hne : x ≠ .error .undefined) :
    ∃ a, x = .ok a := by
  cases x with
  | ok a => exact ⟨a, rfl⟩
  | error e => exact absurd (congrArg Except.error (h e rfl)) hne

/-! ### What is accepted -/

theorem checkArguments_error {t : Transaction} {args : List TestHarnessArgs} {e : Exn}
    (h : t.checkArguments args = .error e) : e ≠ .undefined := by
  obtain ⟨a, -, s, hfail⟩ := exists_of_foldlM_error h
  rintro rfl
  unfold checkArgument at hfail
  split at hfail
  · split at hfail <;> cases hfail
  · cases hfail

theorem funcTotals_error {p : Setup} {args : List TestHarnessArgs} {e : Exn}
    (h : funcTotals p args = .error e) : e ≠ .undefined := by
  obtain ⟨a, -, totals, hfail⟩ := exists_of_foldlM_error h
  rintro rfl
  dsimp only at hfail
  split at hfail <;> cases hfail

theorem resize_error {n : Nat} {e : Exn} (h : resize n = .error e) : e ≠ .undefined := by
  rintro rfl
  unfold resize at h
  split at h <;> cases h

section Accepted

variable {t : Transaction} {args : List TestHarnessArgs} (hsetup : t.setup = p.toSetup)
  (h : Accepts (t.handleInputs args))
include hsetup h

theorem handleInputs_of_accepts : (∀ a ∈ args, a.Checked p.toSetup)
    ∧ t.handleInputs args = (t.prepared args).handleModeInputs >>= fun t =>
      .ok { t with status := .TRANSACTION_READY } := by
  obtain ⟨t₀, hcheck, heq⟩ := h.bind fun e => checkArguments_error
  obtain ⟨rfl, hchecked⟩ := checkArguments_spec hcheck
  have hlen : 0 < t.reset.cfg_ptr.length := by
    have hcfg := prepared_cfg_length args hsetup
    rw [prepared, List.length_set] at hcfg
    omega
  refine ⟨hsetup ▸ hchecked, ?_⟩
  rw [handleInputs, heq, setAt_eq_ok.mpr ⟨hlen, rfl⟩, bind_ok]
  rfl

theorem handleFuncInputs_of_accepts (hmode : t.mode = .FUNC_MODE) : ∃ total_to total_from,
    funcTotals p.toSetup args = .ok (total_to, total_from) ∧ total_to < 2 ^ 62
      ∧ t.handleInputs args
        = (args.foldlM (funcArgument p.toSetup) ⟨t.allocated args total_to total_from, 0, 0⟩
            >>= fun s => .ok { s.trans with status := .TRANSACTION_READY }) := by
  have heq : t.handleInputs args = funcTotals p.toSetup args >>= fun totals =>
      resize totals.1 >>= fun to_aie_ptr => resize totals.2 >>= fun from_aie_ptr =>
      args.foldlM (funcArgument p.toSetup) ⟨{ t.prepared args with to_aie_ptr, from_aie_ptr }, 0, 0⟩
        >>= fun s => .ok { s.trans with status := .TRANSACTION_READY } := by
    rw [(handleInputs_of_accepts hsetup h).2, handleModeInputs, prepared_mode, hmode]
    simp only [handleFuncInputs, prepared_setup, prepared_args_rec, hsetup, bind_assoc]
    rfl
  rw [heq] at h ⊢
  obtain ⟨⟨total_to, total_from⟩, htotals, hbind⟩ := h.bind fun e => funcTotals_error
  rw [hbind] at h ⊢
  obtain ⟨to_aie_ptr, hto, hbind⟩ := h.bind fun e => resize_error
  rw [hbind] at h ⊢
  obtain ⟨from_aie_ptr, hfrom, hbind⟩ := h.bind fun e => resize_error
  rw [hbind]
  obtain ⟨hlt, rfl⟩ := resize_eq_ok.mp hto
  obtain ⟨-, rfl⟩ := resize_eq_ok.mp hfrom
  exact ⟨total_to, total_from, htotals, hlt, rfl⟩

theorem handlePerfInputs_of_accepts (haddr : Addressable p) (hmode : t.mode = .PERF_MODE) :
    t.handleInputs args
      = (args.foldlM (perfArgument p.toSetup) (t.perfAllocated p args) >>= fun t =>
      .ok { t with status := .TRANSACTION_READY }) := by
  have htotal := perfBytes_total haddr
  have heq := (handleInputs_of_accepts hsetup h).2
  rw [handleModeInputs, prepared_mode, hmode] at heq
  change _ = (t.prepared args).handlePerfInputs >>= _ at heq
  simp only [handlePerfInputs, prepared_setup, prepared_args_rec, hsetup, htotal] at heq
  rw [heq] at h ⊢
  by_cases hword : p.memWidth % p.word_size = 0
  · rw [if_neg (not_not.mpr hword)] at h ⊢
    by_cases hbuff : buffBytes p.toSetup % p.memWidth = 0
    · rw [if_neg (not_not.mpr hbuff), bind_assoc] at h ⊢
      obtain ⟨to_aie_ptr, hto, hbind⟩ := h.bind fun e => resize_error
      obtain ⟨-, rfl⟩ := resize_eq_ok.mp hto
      rw [hbind, hto, bind_ok]
      simp only [perfAllocated, prepared_args_rec, prepared_setup, hsetup]
    · rw [if_pos hbuff] at h
      cases h .assertion rfl
  · rw [if_pos hword] at h
    cases h .assertion rfl

end Accepted

/-! ### Outputs -/

def Readable (t : Transaction) (a : TestHarnessArgs) : Prop :=
  ∃ off, t.from_mem_word_offset[a.fromChn]? = some off
    ∧ u32 (off * t.setup.memWidth) + outputBytes t.setup t.mode a ≤ t.from_aie_ptr.length

theorem outputBytes_le (p : Setup) (mode : TestMode) (a : TestHarnessArgs) :
    outputBytes p mode a ≤ a.size := by
  unfold outputBytes
  split
  · exact Nat.le_refl _
  · split
    · omega
    · exact Nat.le_refl _

section Outputs

variable {t : Transaction} (hsetup : t.setup = p.toSetup)
  (hperf : t.perf_ptr.length = p.num_channels * 4)
include hsetup hperf

theorem outputFrom_of_readable {a : TestHarnessArgs} (hbuffer : a.size ≤ a.data.bytes.length)
    (perf_map : Nat → Option (Nat × Nat)) (h : a.IsFrom t.setup → Readable t a) :
    ∃ r, t.outputFrom (a, perf_map) = .ok r := by
  by_cases hfrom : a.IsFrom t.setup
  · obtain ⟨off, hoff, hle⟩ := h hfrom
    obtain ⟨data, hcopy, -⟩ :=
      copyOut_ok hle ((outputBytes_le t.setup t.mode a).trans hbuffer)
    have hchn : a.fromChn < p.num_channels := (hsetup ▸ hfrom : a.IsFrom p.toSetup).fromChn_lt
    obtain ⟨v, hv⟩ := readPerf_ok hperf (Nat.le_refl 2) hchn
    rw [← hsetup] at hv
    refine ⟨({ a with data }, Function.update perf_map a.idx.toNat (some v)), ?_⟩
    simp only [outputFrom]
    rw [if_pos hfrom, getAt_eq_ok.mpr hoff, bind_ok, hcopy, bind_ok, hv, bind_ok]
    rfl
  · exact ⟨(a, perf_map), if_neg hfrom⟩

omit hsetup hperf in
theorem outputFrom_of_not_readable {a : TestHarnessArgs} (perf_map : Nat → Option (Nat × Nat))
    (hfrom : a.IsFrom t.setup) (h : ¬ Readable t a) :
    t.outputFrom (a, perf_map) = .error .undefined := by
  simp only [outputFrom]
  rw [if_pos hfrom]
  cases hoff : t.from_mem_word_offset[a.fromChn]? with
  | none =>
      rw [getAt, hoff]
      rfl
  | some off =>
      rw [getAt_eq_ok.mpr hoff, bind_ok, copyOut, dif_neg]
      · rfl
      · rintro ⟨hle, -⟩
        exact h ⟨off, hoff, hle⟩

theorem outputArgument_cases {a : TestHarnessArgs} (hbuffer : a.size ≤ a.data.bytes.length)
    (perf_map : Nat → Option (Nat × Nat)) :
    ((a.IsFrom t.setup → Readable t a) ∧ ∃ r, outputArgument t perf_map a = .ok r)
      ∨ (¬ (a.IsFrom t.setup → Readable t a) ∧ outputArgument t perf_map a
        = .error .undefined) := by
  obtain ⟨perf₁, hto⟩ := outputTo_ok hsetup hperf a perf_map
  by_cases h : a.IsFrom t.setup → Readable t a
  · refine .inl ⟨h, ?_⟩
    unfold outputArgument
    split
    · rw [hto, bind_ok]
      exact outputFrom_of_readable hsetup hperf hbuffer perf₁ h
    · obtain ⟨⟨a', perf'⟩, hfrom⟩ := outputFrom_of_readable hsetup hperf hbuffer perf_map h
      obtain ⟨perf'', hto'⟩ := outputTo_ok hsetup hperf a' perf'
      exact ⟨(a', perf''), by rw [hfrom, bind_ok, hto']⟩
  · obtain ⟨hfrom, hnot⟩ := Classical.not_imp.mp h
    refine .inr ⟨h, ?_⟩
    unfold outputArgument
    split
    · rw [hto, bind_ok]
      exact outputFrom_of_not_readable perf₁ hfrom hnot
    · rw [outputFrom_of_not_readable perf_map hfrom hnot]
      rfl

theorem handleOutputs_ne_undefined (hbuffer : ∀ a ∈ t.args_rec, a.size ≤ a.data.bytes.length) :
    t.handleOutputs ≠ .error .undefined ↔ ∀ a ∈ t.args_rec, a.IsFrom t.setup → Readable t a := by
  cases hloop : t.args_rec.foldlM (fun s a => do
      let out ← outputArgument t s.2 a
      return (s.1 ++ [out.1], out.2)) (([] : List TestHarnessArgs), t.perf_map) with
  | error e =>
      have hout : t.handleOutputs = .error e := by
        rw [handleOutputs, hloop]
        rfl
      obtain ⟨a, ha, s, hfail⟩ := exists_of_foldlM_error hloop
      rcases outputArgument_cases hsetup hperf (hbuffer a ha) s.2 with ⟨-, r, hr⟩ | ⟨hnot, hundef⟩
      · rw [hr] at hfail
        cases hfail
      · rw [hundef] at hfail
        cases hfail
        exact iff_of_false (fun hne => hne hout) fun hall => hnot (hall a ha)
  | ok r =>
      have hout : ∃ t', t.handleOutputs = .ok t' := ⟨_, by rw [handleOutputs, hloop]; rfl⟩
      obtain ⟨t', hout⟩ := hout
      refine iff_of_true (fun hundef => by rw [hout] at hundef; cases hundef) ?_
      refine foldlM_invariant (I := fun done _ => ∀ a ∈ done, a.IsFrom t.setup → Readable t a)
        (fun a ha => absurd ha List.not_mem_nil) ?_ hloop
      intro done x rest s s' hargs hI hx a ha
      rcases mem_snoc ha with hdone | rfl
      · exact hI a hdone
      · have hmem : a ∈ t.args_rec := hargs ▸ List.mem_append_right done List.mem_cons_self
        rcases outputArgument_cases hsetup hperf (hbuffer a hmem) s.2 with ⟨h, -⟩ | ⟨-, hundef⟩
        · exact h
        · rw [hundef] at hx
          cases hx

end Outputs

/-! ### The loops over the arguments -/

structure Kept (t s : Transaction) : Prop where
  setup_eq : s.setup = t.setup
  mode_eq : s.mode = t.mode
  args_eq : s.args_rec = t.args_rec
  perf_eq : s.perf_ptr = t.perf_ptr
  from_eq : s.from_aie_ptr = t.from_aie_ptr
  to_length : s.to_aie_ptr.length = t.to_aie_ptr.length
  cfg_length : s.cfg_ptr.length = t.cfg_ptr.length
  offs_length : s.from_mem_word_offset.length = t.from_mem_word_offset.length

theorem Kept.refl (t : Transaction) : Kept t t := ⟨rfl, rfl, rfl, rfl, rfl, rfl, rfl, rfl⟩

structure FullTables (p : Platform) (t : Transaction) : Prop where
  cfg_length : t.cfg_ptr.length = p.num_channels * 8 + 1
  offs_length : t.from_mem_word_offset.length = p.num_channels

structure FuncBounds (p : Platform) (t : Transaction) (done : List TestHarnessArgs) (s : FuncLoop) :
    Prop where
  kept : Kept t s.trans
  to_next : s.to_mem_word_offt = u64 (wordsOf p (·.IsTo p.toSetup) done)
  from_next : s.from_mem_word_offt = u64 (wordsOf p (·.IsFrom p.toSetup) done)
  offset_eq : ∀ before b after, done = before ++ b :: after → b.IsFrom p.toSetup →
    (∀ c ∈ after, c.idx ≠ b.idx) → s.trans.from_mem_word_offset[b.fromChn]?
      = some (u32 (wordsOf p (·.IsFrom p.toSetup) before))

theorem u64_mul_u64 (n m : Nat) : u64 (u64 n * m) = u64 (n * m) := Nat.mod_mul_mod n m _

theorem u32_mul_u32 (n m : Nat) : u32 (u32 n * m) = u32 (n * m) := Nat.mod_mul_mod n m _

theorem u32_u64 (n : Nat) : u32 (u64 n) = u32 n := Nat.mod_mod_of_dvd n (by decide)

theorem u64_u64_add (n m : Nat) : u64 (u64 n + m) = u64 (n + m) := Nat.mod_add_mod n _ m

/-- Where an entry stands in a list that has one more at its end. -/
theorem eq_of_snoc {α : Type} {done before after : List α} {x b : α}
    (h : done ++ [x] = before ++ b :: after) :
    (after = [] ∧ b = x ∧ before = done)
      ∨ ∃ after', after = after' ++ [x] ∧ done = before ++ b :: after' := by
  rcases List.eq_nil_or_concat after with rfl | ⟨after', y, rfl⟩
  · obtain ⟨rfl, hx⟩ := List.append_inj' h rfl
    exact .inl ⟨rfl, (List.singleton_inj.mp hx).symm, rfl⟩
  · rw [List.concat_eq_append] at h ⊢
    rw [← List.cons_append, ← List.append_assoc] at h
    obtain ⟨rfl, hx⟩ := List.append_inj' h rfl
    obtain rfl := List.singleton_inj.mp hx
    exact .inr ⟨after', rfl, rfl⟩

section FuncLoop

variable {t : Transaction} {done : List TestHarnessArgs} {x : TestHarnessArgs} {s s' : FuncLoop}

theorem funcBounds_step_to (hx : x.IsTo p.toSetup) (hI : FuncBounds p t done s)
    (h : funcArgument p.toSetup s x = .ok s') :
    FuncBounds p t (done ++ [x]) s'
      ∧ u64 (wordsOf p (·.IsTo p.toSetup) done * p.memWidth) + x.size ≤ t.to_aie_ptr.length := by
  simp only [funcArgument, if_pos hx, bind_eq_ok, memcpy_eq_ok, pure, Except.pure,
    Except.ok.injEq, Nat.zero_add] at h
  obtain ⟨cfg', hcfg, mem', ⟨hsrc, hdst, rfl⟩, rfl⟩ := h
  have hcfg' := writtenCfg_of_writeCfg (Nat.zero_le 4) hx.toChn_lt hcfg
  have hslice : (slice 0 x.size x.data.bytes).length = x.size := length_slice (by omega)
  have hnext : u64 (s.to_mem_word_offt + x.memWords p.toSetup)
      = u64 (wordsOf p (·.IsTo p.toSetup) (done ++ [x])) := by
    rw [wordsOf_snoc hx, hI.to_next, u64_u64_add]
  refine ⟨⟨{ hI.kept with to_length := ?_, cfg_length := ?_ }, hnext, ?_, ?_⟩, ?_⟩
  · refine Eq.trans (length_overwrite ?_) hI.kept.to_length
    rw [hslice]
    exact hdst
  · exact hcfg'.length_eq.trans hI.kept.cfg_length
  · rw [wordsOf_snoc_of_not hx.not_isFrom]
    exact hI.from_next
  · intro before b after hsplit hb hafter
    rcases eq_of_snoc hsplit with ⟨-, rfl, -⟩ | ⟨after', rfl, hdone⟩
    · exact absurd hb hx.not_isFrom
    · exact hI.offset_eq before b after' hdone hb fun c hc =>
        hafter c (List.mem_append_left [x] hc)
  · rw [← u64_mul_u64, ← hI.to_next, ← hI.kept.to_length]
    exact hdst

theorem funcBounds_step_from (hx : x.IsFrom p.toSetup) (hI : FuncBounds p t done s)
    (h : funcArgument p.toSetup s x = .ok s') : FuncBounds p t (done ++ [x]) s' := by
  have hnotTo : ¬ x.IsTo p.toSetup := fun hto => hto.not_isFrom hx
  simp only [funcArgument, if_neg hnotTo, if_pos hx, bind_eq_ok, setAt_eq_ok, pure, Except.pure,
    Except.ok.injEq] at h
  obtain ⟨cfg', hcfg, offs', ⟨hoffs, rfl⟩, rfl⟩ := h
  have hcfg' := writtenCfg_of_writeCfg (Nat.le_refl 4) hx.fromChn_lt hcfg
  have hnext : u64 (s.from_mem_word_offt + x.memWords p.toSetup)
      = u64 (wordsOf p (·.IsFrom p.toSetup) (done ++ [x])) := by
    rw [wordsOf_snoc hx, hI.from_next, u64_u64_add]
  refine ⟨{ hI.kept with cfg_length := ?_, offs_length := ?_ }, ?_, hnext, ?_⟩
  · exact hcfg'.length_eq.trans hI.kept.cfg_length
  · exact List.length_set.trans hI.kept.offs_length
  · rw [wordsOf_snoc_of_not hnotTo]
    exact hI.to_next
  · intro before b after hsplit hb hafter
    change (s.trans.from_mem_word_offset.set x.fromChn (u32 s.from_mem_word_offt))[b.fromChn]? = _
    rcases eq_of_snoc hsplit with ⟨-, rfl, rfl⟩ | ⟨after', rfl, hdone⟩
    · rw [List.getElem?_set_self hoffs, hI.from_next, u32_u64]
    · have hne : x.idx ≠ b.idx := hafter x (List.mem_append_right after' List.mem_cons_self)
      rw [List.getElem?_set_ne (TestHarnessArgs.fromChn_ne hx hb hne)]
      exact hI.offset_eq before b after' hdone hb fun c hc =>
        hafter c (List.mem_append_left [x] hc)

theorem funcArgument_ok_to (ht : FullTables p t) (hx : x.IsTo p.toSetup)
    (hI : FuncBounds p t done s) (hbuffer : x.size ≤ x.data.bytes.length)
    (hfit : u64 (wordsOf p (·.IsTo p.toSetup) done * p.memWidth) + x.size ≤ t.to_aie_ptr.length) :
    ∃ s', funcArgument p.toSetup s x = .ok s' := by
  obtain ⟨cfg', hcfg⟩ := writeCfg_ok (hI.kept.cfg_length.trans ht.cfg_length) (Nat.zero_le 4)
    hx.toChn_lt x s.to_mem_word_offt
  rw [← u64_mul_u64, ← hI.to_next, ← hI.kept.to_length] at hfit
  have hcopy := memcpy_eq_ok.mpr ⟨(Nat.zero_add x.size).symm ▸ hbuffer, hfit, rfl⟩
  exact ⟨_, by rw [funcArgument, if_pos hx, hcfg, bind_ok, hcopy]; rfl⟩

theorem funcArgument_ok_from (ht : FullTables p t) (hx : x.IsFrom p.toSetup)
    (hI : FuncBounds p t done s) :
    ∃ s', funcArgument p.toSetup s x = .ok s' := by
  have hnotTo : ¬ x.IsTo p.toSetup := fun hto => hto.not_isFrom hx
  obtain ⟨cfg', hcfg⟩ := writeCfg_ok (hI.kept.cfg_length.trans ht.cfg_length) (Nat.le_refl 4)
    hx.fromChn_lt x s.from_mem_word_offt
  have hset : x.fromChn < s.trans.from_mem_word_offset.length := by
    rw [hI.kept.offs_length, ht.offs_length]
    exact hx.fromChn_lt
  exact ⟨_, by rw [funcArgument, if_neg hnotTo, if_pos hx, hcfg, bind_ok,
    setAt_eq_ok.mpr ⟨hset, rfl⟩]; rfl⟩

end FuncLoop

section FuncRun

variable {t : Transaction} {args : List TestHarnessArgs} {s : FuncLoop}
  (hchecked : ∀ a ∈ args, a.Checked p.toSetup)
include hchecked

theorem funcBounds_of_loop (hloop : args.foldlM (funcArgument p.toSetup) ⟨t, 0, 0⟩ = .ok s) :
    FuncBounds p t args s := by
  refine foldlM_invariant (I := FuncBounds p t) ?_ ?_ hloop
  · exact ⟨.refl t, rfl, rfl, fun before b after h => by simp at h⟩
  · intro done x rest s s' hargs hI hx
    rcases (hchecked x (hargs ▸ List.mem_append_right done List.mem_cons_self)).1 with hxto | hxfrom
    · exact (funcBounds_step_to hxto hI hx).1
    · exact funcBounds_step_from hxfrom hI hx

/-- A total that has wrapped is too small for the inputs, one of which is then not copied. -/
theorem to_lt_of_loop (hbuffer : ∀ a ∈ args, a.size ≤ a.data.bytes.length)
    (hlen : t.to_aie_ptr.length < 2 ^ 62)
    (hloop : args.foldlM (funcArgument p.toSetup) ⟨t, 0, 0⟩ = .ok s) :
    wordsOf p (·.IsTo p.toSetup) args * p.memWidth < 2 ^ 64 := by
  have hwidth := p.memWidth_lt
  have hbelow : FuncBounds p t args s
      ∧ wordsOf p (·.IsTo p.toSetup) args * p.memWidth < t.to_aie_ptr.length + p.memWidth := by
    refine foldlM_invariant (I := fun done s => FuncBounds p t done s
      ∧ wordsOf p (·.IsTo p.toSetup) done * p.memWidth < t.to_aie_ptr.length + p.memWidth) ?_ ?_
      hloop
    · refine ⟨⟨.refl t, rfl, rfl, fun before b after h => by simp at h⟩, ?_⟩
      have hpos := p.memWidth_pos
      simp only [wordsOf, List.filter_nil, List.map_nil, List.sum_nil, Nat.zero_mul]
      omega
    · rintro done x rest s s' hargs ⟨hI, hlt⟩ hx
      have hmem : x ∈ args := hargs ▸ List.mem_append_right done List.mem_cons_self
      have hsize := hbuffer x hmem
      have hshort := x.data.length_lt
      rcases (hchecked x hmem).1 with hxto | hxfrom
      · obtain ⟨hI', hfit⟩ := funcBounds_step_to hxto hI hx
        rw [u64_of_lt (by omega)] at hfit
        have hwords := memWords_mul_le (p := p) (a := x) (by omega)
        have hnext : wordsOf p (·.IsTo p.toSetup) (done ++ [x])
            = wordsOf p (·.IsTo p.toSetup) done + x.memWords p.toSetup := wordsOf_snoc hxto
        refine ⟨hI', ?_⟩
        rw [hnext, Nat.add_mul]
        omega
      · refine ⟨funcBounds_step_from hxfrom hI hx, ?_⟩
        rwa [wordsOf_snoc_of_not fun hto => hto.not_isFrom hxfrom]
  have hlt := hbelow.2
  omega

theorem funcLoop_ok (ht : FullTables p t) (hbuffer : ∀ a ∈ args, a.size ≤ a.data.bytes.length)
    (hlt : wordsOf p (·.IsTo p.toSetup) args * p.memWidth < 2 ^ 64)
    (hlen : t.to_aie_ptr.length = u64 (wordsOf p (·.IsTo p.toSetup) args * p.memWidth)) :
    ∃ s, args.foldlM (funcArgument p.toSetup) ⟨t, 0, 0⟩ = .ok s := by
  rw [u64_of_lt hlt] at hlen
  obtain ⟨s, hloop, -⟩ := foldlM_ok (f := funcArgument p.toSetup) (l := args) (b := ⟨t, 0, 0⟩)
    (FuncBounds p t) ⟨.refl t, rfl, rfl, fun before b after h => by simp at h⟩ (by
      intro done x rest s hargs hI
      have hmem : x ∈ args := hargs ▸ List.mem_append_right done List.mem_cons_self
      have hsize := hbuffer x hmem
      have hshort := x.data.length_lt
      rcases (hchecked x hmem).1 with hxto | hxfrom
      · have hwords := size_le_memWords (p := p) (a := x) (by omega)
        have hle : wordsOf p (·.IsTo p.toSetup) done + x.memWords p.toSetup
            ≤ wordsOf p (·.IsTo p.toSetup) args := wordsOf_snoc_le hargs hxto
        have htotal := Nat.mul_le_mul_right p.memWidth hle
        rw [Nat.add_mul] at htotal
        obtain ⟨s', hx⟩ := funcArgument_ok_to ht hxto hI hsize (by rw [u64_of_lt (by omega)]; omega)
        exact ⟨s', hx, (funcBounds_step_to hxto hI hx).1⟩
      · obtain ⟨s', hx⟩ := funcArgument_ok_from ht hxfrom hI
        exact ⟨s', hx, funcBounds_step_from hxfrom hI hx⟩)
  exact ⟨s, hloop⟩

end FuncRun

/-- Among the arguments that name a channel one is the last. -/
theorem exists_last {args : List TestHarnessArgs} {a : TestHarnessArgs} (ha : a ∈ args) :
    ∃ before b after, args = before ++ b :: after ∧ a.idx = b.idx ∧ ∀ c ∈ after, c.idx ≠ b.idx := by
  induction args generalizing a with
  | nil => cases ha
  | cons x args ih =>
      by_cases hlater : ∃ c ∈ args, c.idx = a.idx
      · obtain ⟨c, hc, hca⟩ := hlater
        obtain ⟨before, b, after, rfl, hb, hafter⟩ := ih hc
        exact ⟨x :: before, b, after, rfl, hca.symm.trans hb, hafter⟩
      · rcases List.mem_cons.mp ha with rfl | hmem
        · exact ⟨[], a, args, rfl, rfl, fun c hc heq => hlater ⟨c, hc, heq⟩⟩
        · exact absurd ⟨a, hmem, rfl⟩ hlater

theorem fromChn_eq {a b : TestHarnessArgs} (h : a.idx = b.idx) : a.fromChn = b.fromChn := by
  unfold TestHarnessArgs.fromChn
  rw [h]

/-- The outputs of all arguments are in the memory if they fit behind the last of their channel. -/
theorem readable_iff {t u : Transaction} {args : List TestHarnessArgs} {s : FuncLoop}
    (hI : FuncBounds p t args s) (hsetup : u.setup = p.toSetup) (hmode : u.mode = .FUNC_MODE)
    (hoffs : u.from_mem_word_offset = s.trans.from_mem_word_offset) :
    (∀ a ∈ args, a.IsFrom u.setup → Readable u a) ↔ FromFits p args u.from_aie_ptr.length := by
  have hbytes : ∀ a, outputBytes u.setup u.mode a = a.size := fun a => by rw [hmode]; rfl
  have hplace : ∀ before b after (a : TestHarnessArgs), args = before ++ b :: after →
      (∀ c ∈ after, c.idx ≠ b.idx) → a.idx = b.idx → a.IsFrom p.toSetup →
      u.from_mem_word_offset[a.fromChn]? = some (u32 (wordsOf p (·.IsFrom p.toSetup) before)) := by
    intro before b after a hargs hafter hab hfrom
    have hb : b.IsFrom p.toSetup := by
      rw [TestHarnessArgs.isFrom_iff] at hfrom ⊢
      exact hab ▸ hfrom
    rw [hoffs, fromChn_eq hab]
    exact hI.offset_eq before b after hargs hb hafter
  constructor
  · intro hall before b after a hargs hafter ha hab hfrom
    obtain ⟨off, hoff, hle⟩ := hall a ha (hsetup ▸ hfrom)
    rw [hplace before b after a hargs hafter hab hfrom, Option.some_inj] at hoff
    rw [hbytes, hsetup, ← hoff] at hle
    rwa [u32_mul_u32] at hle
  · intro hfits a ha hfrom
    rw [hsetup] at hfrom
    obtain ⟨before, b, after, hargs, hab, hafter⟩ := exists_last ha
    refine ⟨_, hplace before b after a hargs hafter hab hfrom, ?_⟩
    rw [hbytes, hsetup, u32_mul_u32]
    exact hfits before b after a hargs hafter ha hab hfrom

/-! ### The functional mode -/

section Func

variable {t : Transaction} {args : List TestHarnessArgs}

theorem fullTables_allocated (hsetup : t.setup = p.toSetup) (total_to total_from : Nat) :
    FullTables p (t.allocated args total_to total_from) :=
  ⟨prepared_cfg_length args hsetup, prepared_offset_length args hsetup⟩

/-- What the loop has left can be read back if the outputs fit. -/
theorem handleOutputs_of_loop {t₀ : Transaction} {s : FuncLoop} (hI : FuncBounds p t₀ args s)
    (hsetup : t₀.setup = p.toSetup) (hmode : t₀.mode = .FUNC_MODE) (hargs : t₀.args_rec = args)
    (hperf : t₀.perf_ptr.length = p.num_channels * 4)
    (hbuffer : ∀ a ∈ args, a.size ≤ a.data.bytes.length) {from_aie_ptr : List UInt8}
    {perf_ptr : List Nat} (hmem : from_aie_ptr.length = s.trans.from_aie_ptr.length)
    (hcounters : perf_ptr.length = s.trans.perf_ptr.length) (status : TransactionStatus) :
    { s.trans with status, from_aie_ptr, perf_ptr }.handleOutputs ≠ .error .undefined
      ↔ FromFits p args t₀.from_aie_ptr.length := by
  have hargs' : s.trans.args_rec = args := hI.kept.args_eq.trans hargs
  have hsetup' : s.trans.setup = p.toSetup := hI.kept.setup_eq.trans hsetup
  set u : Transaction := { s.trans with status, from_aie_ptr, perf_ptr } with hu
  have hlen : u.from_aie_ptr.length = t₀.from_aie_ptr.length := by
    rw [← hI.kept.from_eq]
    exact hmem
  have hperf' : u.perf_ptr.length = p.num_channels * 4 := by
    rw [← hperf, ← hI.kept.perf_eq]
    exact hcounters
  have hall := handleOutputs_ne_undefined (t := u) hsetup' hperf' (hargs'.symm ▸ hbuffer)
  have hread := readable_iff (u := u) hI hsetup' (hI.kept.mode_eq.trans hmode) rfl
  rw [hall, ← hlen, ← hread]
  exact Iff.of_eq (congrArg (fun l => ∀ a ∈ l, a.IsFrom u.setup → Readable u a) hargs')

theorem inBounds_iff_fits (hsetup : t.setup = p.toSetup) (hmode : t.mode = .FUNC_MODE)
    (hbuffer : ∀ a ∈ args, a.size ≤ a.data.bytes.length) (haccept : Accepts (t.handleInputs args)) :
    InBounds t args ↔ Fits p args := by
  have hchecked := (handleInputs_of_accepts hsetup haccept).1
  obtain ⟨total_to, total_from, htotals, hlen, heq⟩ :=
    handleFuncInputs_of_accepts hsetup haccept hmode
  obtain ⟨-, hto, hfrom⟩ := funcTotals_eq htotals
  have hto' : (t.allocated args total_to total_from).to_aie_ptr.length = total_to :=
    List.length_replicate
  have hfrom' : (t.allocated args total_to total_from).from_aie_ptr.length = total_from :=
    List.length_replicate
  have hperf : (t.allocated args total_to total_from).perf_ptr.length = p.num_channels * 4 :=
    prepared_perf_length args hsetup
  constructor
  · rintro ⟨hinputs, houtputs⟩
    obtain ⟨t', hok⟩ := haccept.exists_ok hinputs
    have hloop := hok
    rw [heq, bind_eq_ok] at hloop
    obtain ⟨s, hloop, hs⟩ := hloop
    cases hs
    have hI := funcBounds_of_loop hchecked hloop
    refine ⟨to_lt_of_loop hchecked hbuffer (by rw [hto']; exact hlen) hloop, ?_⟩
    rw [← hfrom, ← hfrom']
    exact (handleOutputs_of_loop hI hsetup hmode rfl hperf hbuffer rfl rfl _).mp
      (houtputs { s.trans with status := .TRANSACTION_READY } _ _ hok rfl rfl)
  · intro hfits
    obtain ⟨s, hloop⟩ :=
      funcLoop_ok hchecked (fullTables_allocated hsetup total_to total_from) hbuffer
      hfits.to_lt (hto'.trans hto)
    have hI := funcBounds_of_loop hchecked hloop
    rw [hloop, bind_ok] at heq
    constructor
    · rw [heq]
      rintro ⟨⟩
    intro t' from_aie_ptr perf_ptr hok hmem hcounters
    rw [heq] at hok
    cases hok
    refine (handleOutputs_of_loop hI hsetup hmode rfl hperf hbuffer hmem hcounters _).mpr ?_
    rw [hfrom', hfrom]
    exact hfits.from_le

end Func

/-! ### The performance mode -/

structure PerfBounds (p : Platform) (t : Transaction) (done : List TestHarnessArgs)
    (s : Transaction) :
    Prop where
  kept : Kept t s
  offset_eq : ∀ a ∈ done, a.IsFrom p.toSetup →
    s.from_mem_word_offset[a.fromChn]? = some (p.memDepth * a.fromChn)

section Perf

variable {t : Transaction} {done : List TestHarnessArgs} {x : TestHarnessArgs} {s : Transaction}
  (haddr : Addressable p) (ht : FullTables p t)
include haddr ht

theorem perfArgument_ok_to (hlen : t.to_aie_ptr.length = p.num_channels * p.word_size * p.depth)
    (hx : x.IsTo p.toSetup) (hbuffer : x.size ≤ x.data.bytes.length) (hI : PerfBounds p t done s) :
    ∃ s', perfArgument p.toSetup s x = .ok s' ∧ PerfBounds p t (done ++ [x]) s' := by
  have hchn := hx.toChn_lt
  obtain ⟨cfg', hcfg⟩ := writeCfg_ok (hI.kept.cfg_length.trans ht.cfg_length) (Nat.zero_le 4) hchn x
    (perfOffset p.toSetup x.toChn)
  set n := if x.size > buffBytes p.toSetup then buffBytes p.toSetup else x.size with hn
  have hsize : n ≤ x.size := by
    rw [hn]
    split <;> omega
  have hroom : n ≤ p.bufBytes := by
    rw [hn, buffBytes_eq haddr hchn]
    split <;> omega
  have hregion := region_le hchn
  have hfit : u32 (perfOffset p.toSetup x.toChn * p.memWidth) + n ≤ s.to_aie_ptr.length := by
    rw [perfOffset_mul haddr hchn, hI.kept.to_length, hlen]
    omega
  have hslice : (slice 0 n x.data.bytes).length = n := length_slice (by omega)
  have hcopy := memcpy_eq_ok.mpr ⟨show 0 + n ≤ x.data.bytes.length by omega, hfit, rfl⟩
  refine ⟨_, by
    rw [perfArgument, if_pos hx, ← hn]
    dsimp only
    rw [hcopy, bind_ok, hcfg]
    rfl, ?_⟩
  refine ⟨{ hI.kept with to_length := ?_, cfg_length := ?_ }, ?_⟩
  · refine Eq.trans (length_overwrite ?_) hI.kept.to_length
    rw [hslice]
    exact hfit
  · exact (writtenCfg_of_writeCfg (Nat.zero_le 4) hchn hcfg).length_eq.trans hI.kept.cfg_length
  · intro a ha hfrom
    rcases mem_snoc ha with hdone | rfl
    · exact hI.offset_eq a hdone hfrom
    · exact absurd hfrom hx.not_isFrom

theorem perfArgument_ok_from (hx : x.IsFrom p.toSetup) (hI : PerfBounds p t done s) :
    ∃ s', perfArgument p.toSetup s x = .ok s' ∧ PerfBounds p t (done ++ [x]) s' := by
  have hnotTo : ¬ x.IsTo p.toSetup := fun hto => hto.not_isFrom hx
  have hchn := hx.fromChn_lt
  obtain ⟨cfg', hcfg⟩ := writeCfg_ok (hI.kept.cfg_length.trans ht.cfg_length) (Nat.le_refl 4) hchn x
    (perfOffset p.toSetup x.fromChn)
  have hset : x.fromChn < s.from_mem_word_offset.length := by
    rw [hI.kept.offs_length, ht.offs_length]
    exact hchn
  refine ⟨_, by
    rw [perfArgument, if_neg hnotTo, if_pos hx]
    dsimp only
    rw [hcfg, bind_ok, setAt_eq_ok.mpr ⟨hset, rfl⟩]
    rfl, ?_⟩
  refine ⟨{ hI.kept with cfg_length := ?_, offs_length := ?_ }, ?_⟩
  · exact (writtenCfg_of_writeCfg (Nat.le_refl 4) hchn hcfg).length_eq.trans hI.kept.cfg_length
  · exact List.length_set.trans hI.kept.offs_length
  · intro a ha hfrom
    change (s.from_mem_word_offset.set x.fromChn (perfOffset p.toSetup x.fromChn))[a.fromChn]? = _
    by_cases heq : x.fromChn = a.fromChn
    · rw [← heq, List.getElem?_set_self hset, perfOffset_eq haddr hchn]
    · rw [List.getElem?_set_ne heq]
      rcases mem_snoc ha with hdone | rfl
      · exact hI.offset_eq a hdone hfrom
      · exact absurd rfl heq

theorem perfLoop_ok {args : List TestHarnessArgs} (hchecked : ∀ a ∈ args, a.Checked p.toSetup)
    (hlen : t.to_aie_ptr.length = p.num_channels * p.word_size * p.depth)
    (hbuffer : ∀ a ∈ args, a.size ≤ a.data.bytes.length) :
    ∃ s, args.foldlM (perfArgument p.toSetup) t = .ok s ∧ PerfBounds p t args s := by
  refine foldlM_ok (PerfBounds p t) ⟨.refl t, fun a ha => absurd ha List.not_mem_nil⟩ ?_
  intro done x rest s hargs hI
  have hmem : x ∈ args := hargs ▸ List.mem_append_right done List.mem_cons_self
  rcases (hchecked x hmem).1 with hxto | hxfrom
  · exact perfArgument_ok_to haddr ht hlen hxto (hbuffer x hmem) hI
  · exact perfArgument_ok_from haddr ht hxfrom hI

end Perf

theorem inBounds_of_perf {t : Transaction} {args : List TestHarnessArgs} (haddr : Addressable p)
    (hsetup : t.setup = p.toSetup) (hmode : t.mode = .PERF_MODE)
    (hbuffer : ∀ a ∈ args, a.size ≤ a.data.bytes.length) (haccept : Accepts (t.handleInputs args)) :
    InBounds t args := by
  have hchecked := (handleInputs_of_accepts hsetup haccept).1
  have heq := handlePerfInputs_of_accepts hsetup haccept haddr hmode
  have ht : FullTables p (t.perfAllocated p args) :=
    ⟨prepared_cfg_length args hsetup, prepared_offset_length args hsetup⟩
  obtain ⟨s, hloop, hI⟩ := perfLoop_ok haddr ht hchecked List.length_replicate hbuffer
  rw [hloop, bind_ok] at heq
  constructor
  · rw [heq]
    rintro ⟨⟩
  intro t' from_aie_ptr perf_ptr hok hmem hcounters
  rw [heq] at hok
  cases hok
  have hsetup' : s.setup = p.toSetup := hI.kept.setup_eq.trans hsetup
  have hargs : s.args_rec = args := hI.kept.args_eq
  set u : Transaction := { s with status := .TRANSACTION_READY, from_aie_ptr, perf_ptr } with hu
  have hperf : u.perf_ptr.length = p.num_channels * 4 :=
    hcounters.trans
      ((congrArg List.length hI.kept.perf_eq).trans (prepared_perf_length args hsetup))
  have hlen : u.from_aie_ptr.length = p.num_channels * p.word_size * p.depth :=
    hmem.trans ((congrArg List.length hI.kept.from_eq).trans List.length_replicate)
  refine (handleOutputs_ne_undefined (t := u) hsetup' hperf (hargs.symm ▸ hbuffer)).mpr ?_
  intro a ha hfrom
  have hfrom' : a.IsFrom p.toSetup := hsetup' ▸ hfrom
  have hchn := hfrom'.fromChn_lt
  refine ⟨_, hI.offset_eq a (hargs ▸ ha) hfrom', ?_⟩
  have hmode' : u.mode = .PERF_MODE := hI.kept.mode_eq.trans hmode
  have hregion := region_le hchn
  have hplace : u32 (p.memDepth * a.fromChn * u.setup.memWidth) ≤ a.fromChn * p.bufBytes := by
    rw [← regionWord_mul]
    exact hsetup' ▸ u32_le _
  have hbytes : outputBytes u.setup u.mode a ≤ p.bufBytes := by
    rw [hmode', show u.setup = p.toSetup from hsetup', outputBytes, buffBytes_eq haddr hchn]
    split <;> omega
  omega

/-! ### Both modes stay within their buffers -/

/-- The layout code stays inside its buffers in the performance mode, and in the functional mode
just if the arguments fit. -/
theorem inBounds_iff {t : Transaction} {args : List TestHarnessArgs}
    (haddr : t.mode = .PERF_MODE → Addressable p) (hsetup : t.setup = p.toSetup)
    (hbuffer : ∀ a ∈ args, a.size ≤ a.data.bytes.length) (haccept : Accepts (t.handleInputs args)) :
    InBounds t args ↔ (t.mode = .PERF_MODE ∨ Fits p args) := by
  cases hmode : t.mode with
  | FUNC_MODE =>
      rw [inBounds_iff_fits hsetup hmode hbuffer haccept]
      exact ⟨.inr, fun h => h.resolve_left (by rintro ⟨⟩)⟩
  | PERF_MODE =>
      exact iff_of_true (inBounds_of_perf (haddr hmode) hsetup hmode hbuffer haccept) (.inl rfl)

/-- Two words from a channel, after one from the same channel. -/
theorem inBounds_iff_sole :
    InBounds (soleTransaction .FUNC_MODE) [soleOutput 1 (by decide), soleOutput 2 (by decide)]
      ↔ ((soleTransaction .FUNC_MODE).mode = .PERF_MODE
        ∨ Fits solePlatform [soleOutput 1 (by decide), soleOutput 2 (by decide)]) :=
  inBounds_iff (p := solePlatform) (by rintro ⟨⟩) rfl (by decide) (fun _ h => by cases h)

/-- The other way round the two words are read from the place of the one, the last of three. -/
theorem not_inBounds :
    Accepts ((soleTransaction .FUNC_MODE).handleInputs
        [soleOutput 2 (by decide), soleOutput 1 (by decide)])
      ∧ ¬ InBounds (soleTransaction .FUNC_MODE)
        [soleOutput 2 (by decide), soleOutput 1 (by decide)] := by
  constructor
  · intro e h
    cases h
  · rintro ⟨-, houtputs⟩
    exact houtputs _ _ _ rfl rfl rfl rfl

end AieTestHarness
