import AieTestHarness.Kernel.Channel
import Mathlib.Tactic.Ring

/-!
# The configuration words

The host writes four words for each argument (`writeCfg`), the PL reads eight blocks of one word for
each channel (`loadCfg`). The index of a block entry determines the block and the channel, so what
is written for one channel is read for that channel and for no other.
-/

namespace AieTestHarness

open Slices Loops Transaction

variable {p : Platform} {cfg cfg' : List Nat}

theorem entry_inj {n k k' c c' : Nat} (hc : c < n) (hc' : c' < n)
    (h : c + n * k = c' + n * k') : k = k' ∧ c = c' := by
  have hmod : c = c' := by
    have := congrArg (· % n) h
    simpa [Nat.add_mul_mod_self_left, Nat.mod_eq_of_lt hc, Nat.mod_eq_of_lt hc'] using this
  subst hmod
  have hpos : 0 < n := by omega
  exact ⟨Nat.eq_of_mul_eq_mul_left hpos (by omega), rfl⟩

theorem cfgEntry_set {k k' c c' v : Nat} (hc : c < p.num_channels) (hc' : c' < p.num_channels)
    (hlen : c + 1 + p.num_channels * k < cfg.length) :
    cfgEntry p (cfg.set (c + 1 + p.num_channels * k) v) k' c'
      = if k' = k ∧ c' = c then v else cfgEntry p cfg k' c' := by
  unfold cfgEntry
  rw [List.getD_eq_getElem?_getD, List.getD_eq_getElem?_getD, List.getElem?_set]
  by_cases heq : c + 1 + p.num_channels * k = c' + 1 + p.num_channels * k'
  · have heq' : c + p.num_channels * k = c' + p.num_channels * k' := by omega
    obtain ⟨hk, hcc⟩ := entry_inj hc hc' heq'
    rw [if_pos heq, if_pos hlen, if_pos ⟨hk.symm, hcc.symm⟩, Option.getD_some]
  · rw [if_neg heq, if_neg]
    rintro ⟨rfl, rfl⟩
    exact heq rfl

theorem cfgIndex_eq {bias k chn : Nat} (hbias : bias ≤ 4) (hk : k ≤ 3)
    (hchn : chn < p.num_channels) :
    cfgIndex p.toSetup bias k chn = chn + 1 + p.num_channels * (bias + k) := by
  have hN := p.channels_le
  unfold cfgIndex
  rw [u32_of_lt]
  · ring
  · have h1 : p.num_channels * bias ≤ 36 * 4 := Nat.mul_le_mul hN hbias
    have h2 : k * p.num_channels ≤ 3 * 36 := Nat.mul_le_mul hk hN
    omega

theorem writeCfg_ok {bias chn : Nat} (hlen : cfg.length = p.num_channels * 8 + 1) (hbias : bias ≤ 4)
    (hchn : chn < p.num_channels) (a : TestHarnessArgs) (offset : Nat) :
    ∃ cfg', writeCfg p.toSetup cfg bias chn a offset = .ok cfg' := by
  have hindex : ∀ k, k ≤ 3 → cfgIndex p.toSetup bias k chn < p.num_channels * 8 + 1 := by
    intro k hk
    have hblock : p.num_channels * (bias + k) ≤ p.num_channels * 7 :=
      Nat.mul_le_mul_left _ (by omega)
    rw [cfgIndex_eq hbias hk hchn]
    omega
  simp only [writeCfg, bind_eq_ok, setAt_eq_ok]
  refine ⟨_, _, ⟨?_, rfl⟩, _, ⟨?_, rfl⟩, _, ⟨?_, rfl⟩, ?_, rfl⟩
  · exact hlen ▸ hindex 0 (by omega)
  · rw [List.length_set]
    exact hlen ▸ hindex 1 (by omega)
  · rw [List.length_set, List.length_set]
    exact hlen ▸ hindex 2 (by omega)
  · rw [List.length_set, List.length_set, List.length_set]
    exact hlen ▸ hindex 3 (by omega)

/-- What `writeCfg` leaves: the four words of its channel, every other entry as before. -/
structure WrittenCfg (p : Platform) (bias chn : Nat) (a : TestHarnessArgs) (offset : Nat)
    (cfg cfg' : List Nat) : Prop where
  length_eq : cfg'.length = cfg.length
  mode_eq : cfg'.getD 0 0 = cfg.getD 0 0
  delay_eq : cfgEntry p cfg' bias chn = a.delay.toNat
  frames_eq : cfgEntry p cfg' (bias + 1) chn = a.size / p.word_size
  rep_eq : cfgEntry p cfg' (bias + 2) chn = a.repetition.toNat
  offset_eq : cfgEntry p cfg' (bias + 3) chn = offset
  other_eq : ∀ k c, c < p.num_channels → (c ≠ chn ∨ k < bias ∨ bias + 4 ≤ k) →
    cfgEntry p cfg' k c = cfgEntry p cfg k c

theorem writtenCfg_of_writeCfg {bias chn offset : Nat} {a : TestHarnessArgs} (hbias : bias ≤ 4)
    (hchn : chn < p.num_channels)
    (h : writeCfg p.toSetup cfg bias chn a offset = .ok cfg') :
    WrittenCfg p bias chn a offset cfg cfg' := by
  simp only [writeCfg, bind_eq_ok, setAt_eq_ok] at h
  obtain ⟨_, ⟨h0, rfl⟩, _, ⟨h1, rfl⟩, _, ⟨h2, rfl⟩, h3, rfl⟩ := h
  simp only [List.length_set] at h0 h1 h2 h3
  rw [cfgIndex_eq hbias (by omega) hchn] at h0 h1 h2 h3
  simp only [cfgIndex_eq hbias (Nat.zero_le 3) hchn, cfgIndex_eq hbias (show 1 ≤ 3 by omega) hchn,
    cfgIndex_eq hbias (show 2 ≤ 3 by omega) hchn, cfgIndex_eq hbias (Nat.le_refl 3) hchn]
  have hentry : ∀ k c, c < p.num_channels → cfgEntry p
      ((((cfg.set (chn + 1 + p.num_channels * (bias + 0)) a.delay.toNat).set
        (chn + 1 + p.num_channels * (bias + 1)) (a.size / p.word_size)).set
        (chn + 1 + p.num_channels * (bias + 2)) a.repetition.toNat).set
        (chn + 1 + p.num_channels * (bias + 3)) offset) k c
      = if k = bias + 3 ∧ c = chn then offset
        else if k = bias + 2 ∧ c = chn then a.repetition.toNat
        else if k = bias + 1 ∧ c = chn then a.size / p.word_size
        else if k = bias + 0 ∧ c = chn then a.delay.toNat
        else cfgEntry p cfg k c := by
    intro k c hc
    rw [cfgEntry_set hchn hc (by simpa only [List.length_set] using h3),
      cfgEntry_set hchn hc (by simpa only [List.length_set] using h2),
      cfgEntry_set hchn hc (by simpa only [List.length_set] using h1), cfgEntry_set hchn hc h0]
  constructor
  · simp only [List.length_set]
  · simp [List.getD_eq_getElem?_getD]
  · rw [hentry _ _ hchn]
    simp
  · rw [hentry _ _ hchn]
    simp
  · rw [hentry _ _ hchn]
    simp
  · rw [hentry _ _ hchn]
    simp
  · intro k c hc hother
    rw [hentry _ _ hc, if_neg (by omega), if_neg (by omega), if_neg (by omega), if_neg (by omega)]

namespace WrittenCfg

variable {bias chn offset : Nat} {a : TestHarnessArgs}

/-- The PL reads back what was written for the channel. -/
theorem loadChannel_self (h : WrittenCfg p bias chn a offset cfg cfg') :
    loadChannel p cfg' bias chn =
      { mode := if cfg.getD 0 0 = 0 then .FUNC_MODE else .PERF_MODE
        delays := a.delay.toNat
        numFrames := u32 (a.size / p.word_size)
        numRep := u32 a.repetition.toNat
        offsets := u32 offset } := by
  simp only [loadChannel, h.mode_eq, h.delay_eq, h.frames_eq, h.rep_eq, h.offset_eq]

/-- Channels of the other direction, and the other channels of this one, are as before. -/
theorem loadChannel_other (h : WrittenCfg p bias chn a offset cfg cfg') {k c : Nat}
    (hc : c < p.num_channels) (hother : c ≠ chn ∨ k + 4 ≤ bias ∨ bias + 4 ≤ k) :
    loadChannel p cfg' k c = loadChannel p cfg k c := by
  have hentry : ∀ j, j ≤ 3 → cfgEntry p cfg' (k + j) c = cfgEntry p cfg (k + j) c :=
    fun j hj => h.other_eq _ _ hc (by omega)
  simp only [loadChannel, h.mode_eq]
  rw [show cfgEntry p cfg' k c = cfgEntry p cfg k c from hentry 0 (by omega),
    hentry 1 (by omega), hentry 2 (by omega), hentry 3 (by omega)]

end WrittenCfg

theorem loadChannel_replicate (n k c : Nat) :
    loadChannel p (List.replicate n 0) k c = ⟨.FUNC_MODE, 0, 0, 0, 0⟩ := by
  have hzero : ∀ i, (List.replicate n 0).getD i 0 = 0 := by
    intro i
    rw [List.getD_eq_getElem?_getD, List.getElem?_replicate]
    split <;> rfl
  simp [loadChannel, cfgEntry, u32, hzero, -List.getD_eq_getElem?_getD]

/-- `cfg_ptr[0]`, the mode, is read by every channel and belongs to none. -/
theorem loadChannel_set_zero {v : Nat} (k c : Nat) (hlen : 0 < cfg.length) :
    loadChannel p (cfg.set 0 v) k c =
      { loadChannel p cfg k c with mode := if v = 0 then .FUNC_MODE else .PERF_MODE } := by
  have hentry : ∀ j, cfgEntry p (cfg.set 0 v) j c = cfgEntry p cfg j c := by
    intro j
    unfold cfgEntry
    rw [List.getD_eq_getElem?_getD, List.getD_eq_getElem?_getD, List.getElem?_set,
      if_neg (by omega)]
  have hmode : (cfg.set 0 v).getD 0 0 = v := by
    rw [List.getD_eq_getElem?_getD, List.getElem?_set, if_pos rfl, if_pos hlen, Option.getD_some]
  simp only [loadChannel, hentry, hmode]

end AieTestHarness
