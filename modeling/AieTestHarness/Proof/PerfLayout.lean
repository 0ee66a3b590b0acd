import AieTestHarness.Proof.Inputs

/-!
# The performance mode layout

Each channel has a region of its own in `to_aie_ptr` and in `from_aie_ptr`, as large as its URAM
buffer, and the regions follow each other in the order of the channels. An argument to the AIE fills
its region from the bottom; what does not fit is left out, and the result is marked invalid.
-/

namespace AieTestHarness

open Slices Loops Transaction

variable {p : Platform}

def Platform.bufBytes (p : Platform) : Nat := p.word_size * p.depth

/-- What the performance mode needs so that 32 bits address all regions. -/
def Addressable (p : Platform) : Prop := p.num_channels * p.word_size * p.depth < 2 ^ 31

instance (p : Platform) : Decidable (Addressable p) := inferInstanceAs (Decidable (_ < _))

theorem memDepth_mul_memWidth : p.memDepth * p.memWidth = p.bufBytes := by
  rw [← p.memRatio_mul, ← Nat.mul_assoc, p.memDepth_mul, Nat.mul_comm, Platform.bufBytes]

/-- The region of a channel ends where all regions end, or before. -/
theorem region_le {c : Nat} (hc : c < p.num_channels) :
    c * p.bufBytes + p.bufBytes ≤ p.num_channels * p.word_size * p.depth := by
  have := Nat.mul_le_mul_right p.bufBytes hc
  rw [Nat.succ_mul] at this
  rwa [Nat.mul_assoc, ← Platform.bufBytes]

/-- Where the region of a channel begins, in memory words and in bytes. -/
theorem regionWord_mul (c : Nat) : p.memDepth * c * p.memWidth = c * p.bufBytes := by
  rw [← memDepth_mul_memWidth]
  ring

section Offsets

variable (haddr : Addressable p) {c : Nat} (hc : c < p.num_channels)
include haddr hc

theorem bufBytes_lt : p.bufBytes < 2 ^ 31 := by
  have := region_le hc
  unfold Addressable at haddr
  omega

theorem buffBytes_eq : buffBytes p.toSetup = p.bufBytes := by
  have := bufBytes_lt haddr hc
  exact u32_of_lt (by unfold Platform.bufBytes at this; omega)

theorem regionWord_lt : p.memDepth * c * p.memWidth < 2 ^ 31 := by
  have := region_le hc
  unfold Addressable at haddr
  rw [regionWord_mul]
  omega

theorem perfOffset_eq : perfOffset p.toSetup c = p.memDepth * c := by
  have hlt := regionWord_lt haddr hc
  have hle : p.memDepth * c ≤ p.memDepth * c * p.memWidth :=
    Nat.le_mul_of_pos_right _ p.memWidth_pos
  unfold perfOffset
  rw [buffBytes_eq haddr hc, ← memDepth_mul_memWidth, Nat.mul_div_cancel _ p.memWidth_pos]
  exact u32_of_lt (by omega)

theorem perfOffset_mul : u32 (perfOffset p.toSetup c * p.memWidth) = c * p.bufBytes := by
  have hlt := regionWord_lt haddr hc
  rw [perfOffset_eq haddr hc, u32_of_lt (by omega), regionWord_mul]

end Offsets

/-- The bytes of an argument that fit into its region. -/
def perfBytes (p : Platform) (a : TestHarnessArgs) : Nat := min a.size p.bufBytes

def perfChannel (p : Platform) (a : TestHarnessArgs) (chn : Nat) : Channel where
  mode := .PERF_MODE
  delays := a.delay.toNat
  numFrames := u32 (a.size / p.word_size)
  numRep := u32 a.repetition.toNat
  offsets := p.memDepth * chn

structure PerfInv (p : Platform) (t : Transaction) (done : List TestHarnessArgs) (s : Transaction) :
    Prop where
  setup_eq : s.setup = t.setup
  mode_eq : s.mode = t.mode
  args_eq : s.args_rec = t.args_rec
  from_eq : s.from_aie_ptr = t.from_aie_ptr
  perf_eq : s.perf_ptr = t.perf_ptr
  valid_iff : s.result_valid = true ↔
    t.result_valid = true ∧ ∀ a ∈ done, a.IsTo p.toSetup → a.size ≤ p.bufBytes
  cfg_mode : s.cfg_ptr.getD 0 0 = t.cfg_ptr.getD 0 0
  mem_length : s.to_aie_ptr.length = t.to_aie_ptr.length
  offs_length : s.from_mem_word_offset.length = t.from_mem_word_offset.length
  listed_to : ∀ a ∈ done, a.IsTo p.toSetup →
    loadChannel p s.cfg_ptr 0 a.toChn = perfChannel p a a.toChn
      ∧ perfBytes p a ≤ a.data.bytes.length
      ∧ slice (a.toChn * p.bufBytes) (perfBytes p a) s.to_aie_ptr
        = a.data.bytes.take (perfBytes p a)
  unlisted_to : ∀ c < p.num_channels, (∀ a ∈ done, a.IsTo p.toSetup → a.toChn ≠ c) →
    loadChannel p s.cfg_ptr 0 c = loadChannel p t.cfg_ptr 0 c
  listed_from : ∀ a ∈ done, a.IsFrom p.toSetup →
    loadChannel p s.cfg_ptr 4 a.fromChn = perfChannel p a a.fromChn
      ∧ s.from_mem_word_offset[a.fromChn]? = some (p.memDepth * a.fromChn)
  unlisted_from : ∀ c < p.num_channels, (∀ a ∈ done, a.IsFrom p.toSetup → a.fromChn ≠ c) →
    loadChannel p s.cfg_ptr 4 c = loadChannel p t.cfg_ptr 4 c

theorem mem_snoc {α : Type} {done : List α} {x a : α} (h : a ∈ done ++ [x]) : a ∈ done ∨ a = x := by
  simpa using h

/-- Regions of different channels do not meet. -/
theorem regions_disjoint {c c' n n' : Nat} (hn : n ≤ p.bufBytes) (hn' : n' ≤ p.bufBytes)
    (hne : c ≠ c') : c * p.bufBytes + n ≤ c' * p.bufBytes
      ∨ c' * p.bufBytes + n' ≤ c * p.bufBytes := by
  rcases Nat.lt_or_gt_of_ne hne with hlt | hgt
  · have := Nat.mul_le_mul_right p.bufBytes hlt
    rw [Nat.succ_mul] at this
    omega
  · have := Nat.mul_le_mul_right p.bufBytes hgt
    rw [Nat.succ_mul] at this
    omega

theorem perfInv_step_to {t : Transaction} {args done rest : List TestHarnessArgs}
    {x : TestHarnessArgs} {s s' : Transaction} (haddr : Addressable p)
    (hdistinct : DistinctChannels args)
    (hlen : t.to_aie_ptr.length = p.num_channels * p.word_size * p.depth)
    (hmode : cfgMode t.cfg_ptr = .PERF_MODE) (hargs : args = done ++ x :: rest)
    (hx : x.IsTo p.toSetup) (hI : PerfInv p t done s)
    (h : perfArgument p.toSetup s x = .ok s') : PerfInv p t (done ++ [x]) s' := by
  have hchn := hx.toChn_lt
  have hbuff := buffBytes_eq haddr hchn
  have hbytes : (if x.size > buffBytes p.toSetup then buffBytes p.toSetup else x.size)
      = perfBytes p x := by
    rw [hbuff, perfBytes]
    split <;> omega
  have hregion := region_le hchn
  simp only [perfArgument, if_pos hx, bind_eq_ok, memcpy_eq_ok, pure, Except.pure,
    Except.ok.injEq, Nat.zero_add] at h
  obtain ⟨mem', ⟨hsrc, hdst, rfl⟩, cfg', hcfg, rfl⟩ := h
  rw [hbytes] at hsrc hdst
  have hle : perfBytes p x ≤ p.bufBytes := Nat.min_le_right _ _
  have hoff := perfOffset_mul haddr hchn
  change u32 (perfOffset p.toSetup x.toChn * p.memWidth) = _ at hoff
  have hcfg' := writtenCfg_of_writeCfg (by omega) hchn hcfg
  have hslice : (slice 0 (perfBytes p x) x.data.bytes).length = perfBytes p x :=
    length_slice (by omega)
  have hfit : x.toChn * p.bufBytes + (slice 0 (perfBytes p x) x.data.bytes).length
      ≤ s.to_aie_ptr.length := by
    rw [hslice, hI.mem_length, hlen]
    omega
  have hoffset := perfOffset_eq haddr hchn
  have hself : loadChannel p cfg' 0 x.toChn = perfChannel p x x.toChn := by
    have hlt := regionWord_lt haddr hchn
    have hle : p.memDepth * x.toChn ≤ p.memDepth * x.toChn * p.memWidth :=
      Nat.le_mul_of_pos_right _ p.memWidth_pos
    rw [hcfg'.loadChannel_self, hI.cfg_mode, hoffset,
      u32_of_lt (show p.memDepth * x.toChn < _ by omega)]
    show Channel.mk (cfgMode t.cfg_ptr) _ _ _ _ = _
    rw [hmode]
    rfl
  have hne : ∀ a ∈ done, a.idx ≠ x.idx := fun a ha =>
    (hargs ▸ hdistinct : DistinctChannels _).ne_of_mem ha
  refine ⟨hI.setup_eq, hI.mode_eq, hI.args_eq, hI.from_eq, hI.perf_eq, ?_,
    hcfg'.mode_eq.trans hI.cfg_mode, ?_, hI.offs_length, ?_, ?_, ?_, ?_⟩
  · show (if x.size > buffBytes p.toSetup then false else s.result_valid) = true ↔ _
    rw [hbuff]
    split
    · rename_i hbig
      simp only [Bool.false_eq_true, false_iff, not_and]
      intro _ hall
      have := hall x (by simp) hx
      omega
    · rename_i hsmall
      rw [hI.valid_iff]
      refine and_congr_right fun _ =>
        ⟨fun hall a ha hato => ?_, fun hall a ha => hall a (by simp [ha])⟩
      rcases mem_snoc ha with hold | rfl
      · exact hall a hold hato
      · omega
  · show (overwrite _ _ _).length = _
    rw [hoff, hbytes, length_overwrite hfit, hI.mem_length]
  · intro a ha hato
    show loadChannel p cfg' 0 _ = _ ∧ _ ∧ slice _ _ (overwrite _ _ _) = _
    rw [hoff, hbytes]
    rcases mem_snoc ha with hold | rfl
    · obtain ⟨hchannel, hbuffer, hdata⟩ := hI.listed_to a hold hato
      have hchnne := TestHarnessArgs.toChn_ne (hne a hold)
      refine ⟨by rw [hcfg'.loadChannel_other hato.toChn_lt (Or.inl hchnne), hchannel], hbuffer, ?_⟩
      rw [slice_overwrite_of_disjoint hfit, hdata]
      rw [hslice]
      exact regions_disjoint (Nat.min_le_right _ _) hle hchnne
    · refine ⟨hself, hsrc, ?_⟩
      have hread := slice_overwrite_self hfit
      rwa [hslice, slice_zero_off] at hread
  · intro c hc hnone
    have hxc : c ≠ x.toChn := fun heq => hnone x (by simp) hx heq.symm
    show loadChannel p cfg' 0 c = _
    rw [hcfg'.loadChannel_other hc (Or.inl hxc)]
    exact hI.unlisted_to c hc fun a ha => hnone a (by simp [ha])
  · intro a ha hafrom
    show loadChannel p cfg' 4 _ = _ ∧ _
    rw [hcfg'.loadChannel_other hafrom.fromChn_lt (by omega)]
    rcases mem_snoc ha with hold | rfl
    · exact hI.listed_from a hold hafrom
    · exact absurd hafrom hx.not_isFrom
  · intro c hc hnone
    show loadChannel p cfg' 4 c = _
    rw [hcfg'.loadChannel_other hc (by omega)]
    exact hI.unlisted_from c hc fun a ha => hnone a (by simp [ha])

theorem perfInv_step_from {t : Transaction} {args done rest : List TestHarnessArgs}
    {x : TestHarnessArgs} {s s' : Transaction} (haddr : Addressable p)
    (hdistinct : DistinctChannels args) (hmode : cfgMode t.cfg_ptr = .PERF_MODE)
    (hargs : args = done ++ x :: rest) (hx : x.IsFrom p.toSetup) (hI : PerfInv p t done s)
    (h : perfArgument p.toSetup s x = .ok s') : PerfInv p t (done ++ [x]) s' := by
  have hnotTo : ¬ x.IsTo p.toSetup := fun hto => hto.not_isFrom hx
  have hchn := hx.fromChn_lt
  have hoffset := perfOffset_eq haddr hchn
  simp only [perfArgument, if_neg hnotTo, if_pos hx, bind_eq_ok, setAt_eq_ok, pure, Except.pure,
    Except.ok.injEq] at h
  obtain ⟨cfg', hcfg, offs', ⟨hoffs, rfl⟩, rfl⟩ := h
  have hcfg' := writtenCfg_of_writeCfg (by omega) hchn hcfg
  have hself : loadChannel p cfg' 4 x.fromChn = perfChannel p x x.fromChn := by
    have hlt := regionWord_lt haddr hchn
    have hle : p.memDepth * x.fromChn ≤ p.memDepth * x.fromChn * p.memWidth :=
      Nat.le_mul_of_pos_right _ p.memWidth_pos
    rw [hcfg'.loadChannel_self, hI.cfg_mode, hoffset,
      u32_of_lt (show p.memDepth * x.fromChn < _ by omega)]
    show Channel.mk (cfgMode t.cfg_ptr) _ _ _ _ = _
    rw [hmode]
    rfl
  have hne : ∀ a ∈ done, a.idx ≠ x.idx := fun a ha =>
    (hargs ▸ hdistinct : DistinctChannels _).ne_of_mem ha
  refine ⟨hI.setup_eq, hI.mode_eq, hI.args_eq, hI.from_eq, hI.perf_eq, ?_,
    hcfg'.mode_eq.trans hI.cfg_mode, hI.mem_length, ?_, ?_, ?_, ?_, ?_⟩
  · rw [show ({ s with cfg_ptr := cfg', from_mem_word_offset := _ } : Transaction).result_valid
      = s.result_valid from rfl, hI.valid_iff]
    refine and_congr_right fun _ =>
      ⟨fun hall a ha hato => ?_, fun hall a ha => hall a (by simp [ha])⟩
    rcases mem_snoc ha with hold | rfl
    · exact hall a hold hato
    · exact absurd hato hnotTo
  · show (List.set _ _ _).length = _
    rw [List.length_set, hI.offs_length]
  · intro a ha hato
    show loadChannel p cfg' 0 _ = _ ∧ _
    rw [hcfg'.loadChannel_other hato.toChn_lt (by omega)]
    rcases mem_snoc ha with hold | rfl
    · exact hI.listed_to a hold hato
    · exact absurd hato hnotTo
  · intro c hc hnone
    show loadChannel p cfg' 0 c = _
    rw [hcfg'.loadChannel_other hc (by omega)]
    exact hI.unlisted_to c hc fun a ha => hnone a (by simp [ha])
  · intro a ha hafrom
    show loadChannel p cfg' 4 _ = _ ∧ (List.set _ _ _)[_]? = _
    rcases mem_snoc ha with hold | rfl
    · obtain ⟨hchannel, hoff⟩ := hI.listed_from a hold hafrom
      have hchnne := TestHarnessArgs.fromChn_ne hafrom hx (hne a hold)
      exact ⟨by rw [hcfg'.loadChannel_other hafrom.fromChn_lt (Or.inl hchnne), hchannel],
        by rw [List.getElem?_set_ne hchnne.symm, hoff]⟩
    · exact ⟨hself, by rw [List.getElem?_set_self hoffs, hoffset]⟩
  · intro c hc hnone
    have hxc : c ≠ x.fromChn := fun heq => hnone x (by simp) hx heq.symm
    show loadChannel p cfg' 4 c = _
    rw [hcfg'.loadChannel_other hc (Or.inl hxc)]
    exact hI.unlisted_from c hc fun a ha => hnone a (by simp [ha])

structure PerfLayout (p : Platform) (t : Transaction) (args : List TestHarnessArgs) : Prop where
  setup_eq : t.setup = p.toSetup
  mode_eq : t.mode = .PERF_MODE
  args_eq : t.args_rec = args
  cfg_mode : cfgMode t.cfg_ptr = .PERF_MODE
  perf_length : t.perf_ptr.length = p.num_channels * 4
  valid_iff : t.result_valid = true ↔ ∀ a ∈ args, a.IsTo p.toSetup → a.size ≤ p.bufBytes
  checked : ∀ a ∈ args, a.Checked p.toSetup
  to_length : t.to_aie_ptr.length = p.num_channels * p.word_size * p.depth
  from_length : t.from_aie_ptr.length = p.num_channels * p.word_size * p.depth
  listed_to : ∀ a ∈ args, a.IsTo p.toSetup →
    loadChannel p t.cfg_ptr 0 a.toChn = perfChannel p a a.toChn
      ∧ perfBytes p a ≤ a.data.bytes.length
      ∧ slice (a.toChn * p.bufBytes) (perfBytes p a) t.to_aie_ptr
        = a.data.bytes.take (perfBytes p a)
  unlisted_to : ∀ c < p.num_channels, (∀ a ∈ args, a.IsTo p.toSetup → a.toChn ≠ c) →
    loadChannel p t.cfg_ptr 0 c = ⟨.PERF_MODE, 0, 0, 0, 0⟩
  listed_from : ∀ a ∈ args, a.IsFrom p.toSetup →
    loadChannel p t.cfg_ptr 4 a.fromChn = perfChannel p a a.fromChn
      ∧ t.from_mem_word_offset[a.fromChn]? = some (p.memDepth * a.fromChn)
  unlisted_from : ∀ c < p.num_channels, (∀ a ∈ args, a.IsFrom p.toSetup → a.fromChn ≠ c) →
    loadChannel p t.cfg_ptr 4 c = ⟨.PERF_MODE, 0, 0, 0, 0⟩

def Transaction.perfAllocated (t : Transaction) (p : Platform) (args : List TestHarnessArgs) :
    Transaction :=
  { t.prepared args with
    to_aie_ptr := List.replicate (p.num_channels * p.word_size * p.depth) 0
    from_aie_ptr := List.replicate (p.num_channels * p.word_size * p.depth) 0 }

/-- The size of either buffer fits into 32 bits, in both products that compute it. -/
theorem perfBytes_total (haddr : Addressable p) :
    u32 (u32 (p.num_channels * p.word_size) * p.depth)
      = p.num_channels * p.word_size * p.depth := by
  have hle : p.num_channels * p.word_size ≤ p.num_channels * p.word_size * p.depth :=
    Nat.le_mul_of_pos_right _ p.depth_pos
  unfold Addressable at haddr
  rw [u32_of_lt (n := p.num_channels * p.word_size) (by omega), u32_of_lt (by omega)]

theorem handlePerfInputs_spec {t t₁ : Transaction} {args : List TestHarnessArgs}
    (haddr : Addressable p) (hsetup : t.setup = p.toSetup) (hmode : t.mode = .PERF_MODE)
    (h : (t.prepared args).handleModeInputs = .ok t₁) :
    args.foldlM (perfArgument p.toSetup) (t.perfAllocated p args) = .ok t₁ := by
  have htotal := perfBytes_total haddr
  rw [handleModeInputs, prepared_mode, hmode] at h
  change (t.prepared args).handlePerfInputs = .ok t₁ at h
  simp only [handlePerfInputs, prepared_setup, prepared_args_rec, hsetup, htotal] at h
  split at h
  · cases h
  split at h
  · cases h
  simp only [bind_eq_ok, resize_eq_ok] at h
  obtain ⟨_, ⟨-, rfl⟩, _, ⟨-, rfl⟩, hloop⟩ := h
  rw [← hloop]
  simp only [perfAllocated, prepared_args_rec, hsetup, prepared_setup]

theorem perfLayout_of_handleInputs {t t' : Transaction} {args : List TestHarnessArgs}
    (haddr : Addressable p) (hsetup : t.setup = p.toSetup) (hmode : t.mode = .PERF_MODE)
    (hdistinct : DistinctChannels args) (h : t.handleInputs args = .ok t') :
    PerfLayout p t' args := by
  obtain ⟨hchecked, t₁, ht₁, rfl⟩ := handleInputs_eq_ok h
  have hloop := handlePerfInputs_spec haddr hsetup hmode ht₁
  have hmode₀ : cfgMode (t.perfAllocated p args).cfg_ptr = .PERF_MODE :=
    (cfgMode_prepared args hsetup).trans hmode
  have hlen : (t.perfAllocated p args).to_aie_ptr.length = p.num_channels * p.word_size * p.depth :=
    List.length_replicate
  have hI : PerfInv p (t.perfAllocated p args) args t₁ := by
    refine foldlM_invariant (I := PerfInv p (t.perfAllocated p args)) ?_ ?_ hloop
    · exact ⟨rfl, rfl, rfl, rfl, rfl, by simp, rfl, rfl, rfl, by simp, fun _ _ _ => rfl, by simp,
        fun _ _ _ => rfl⟩
    · intro done x rest s s' hargs hI hx
      have hxmem : x ∈ args := by simp [hargs]
      rcases (hsetup ▸ hchecked x hxmem).1 with hxto | hxfrom
      · exact perfInv_step_to haddr hdistinct hlen hmode₀ hargs hxto hI hx
      · exact perfInv_step_from haddr hdistinct hmode₀ hargs hxfrom hI hx
  have hempty : ∀ k c, loadChannel p (t.perfAllocated p args).cfg_ptr k c
    = ⟨.PERF_MODE, 0, 0, 0, 0⟩ :=
    fun k c => hmode ▸ prepared_loadChannel args hsetup k c
  constructor
  case setup_eq => exact hI.setup_eq.trans hsetup
  case mode_eq => exact hI.mode_eq.trans hmode
  case args_eq => exact hI.args_eq
  case cfg_mode =>
    rw [← hmode₀]
    exact congrArg (fun v => if v = 0 then TestMode.FUNC_MODE else .PERF_MODE) hI.cfg_mode
  case perf_length =>
    exact (congrArg List.length hI.perf_eq).trans (prepared_perf_length args hsetup)
  case valid_iff => exact hI.valid_iff.trans (and_iff_right rfl)
  case checked => exact hsetup ▸ hchecked
  case to_length => exact hI.mem_length.trans hlen
  case from_length => exact (congrArg List.length hI.from_eq).trans List.length_replicate
  case listed_to => exact hI.listed_to
  case unlisted_to => exact fun c hc hnone => (hI.unlisted_to c hc hnone).trans (hempty 0 c)
  case listed_from => exact hI.listed_from
  case unlisted_from => exact fun c hc hnone => (hI.unlisted_from c hc hnone).trans (hempty 4 c)

end AieTestHarness
