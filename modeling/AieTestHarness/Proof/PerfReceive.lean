import AieTestHarness.Proof.Outputs
import AieTestHarness.Proof.PerfTransmit
import Mathlib.Data.List.GetD

/-!
# Performance mode from the AIE

A channel records what it receives into its URAM buffer, round and round, and from the start again
in each repetition, so the buffer ends up with the last repetition as long as that fits. The kernel
then packs the buffers into the regions of their channels, and the host copies these out.
-/

namespace AieTestHarness

open Slices Loops Transaction

section Get

variable {p : Platform} {ch : Channel} {buff strm : List Beat}

/-- A repetition that fits fills the buffer from slot 0 on. -/
theorem getFrames_eq (hfit : ch.numFrames ≤ p.depth) {i : Nat} (hi : i ≤ ch.numFrames)
    (hbuff : buff.length = p.depth) (hstrm : i ≤ strm.length) :
    getFrames p ch i buff strm
      = some (overwrite buff (ch.numFrames - i) (strm.take i), strm.drop i) := by
  induction i generalizing buff strm with
  | zero => simp [getFrames]
  | succ i ih =>
      obtain ⟨tmp, strm, rfl⟩ : ∃ tmp rest, strm = tmp :: rest :=
        List.exists_cons_of_length_pos (by omega)
      have hslot : (ch.numFrames - (i + 1)) % p.depth = ch.numFrames - (i + 1) :=
        Nat.mod_eq_of_lt (by omega)
      have hstrm' : i ≤ strm.length := by simpa using hstrm
      rw [getFrames, hslot, ih (by omega) (by rw [List.length_set, hbuff]) hstrm',
        set_eq_overwrite (by omega),
        show ch.numFrames - i = ch.numFrames - (i + 1) + [tmp].length by
          rw [List.length_singleton]; omega,
        overwrite_overwrite_append (by
          rw [List.length_singleton, List.length_take]
          omega)]
      rfl

/-- The buffer ends up with the last repetition. -/
theorem getReps_eq (hfit : ch.numFrames ≤ p.depth) {n : Nat} (hbuff : buff.length = p.depth)
    (hstrm : (n + 1) * ch.numFrames ≤ strm.length) :
    getReps p ch (n + 1) buff strm
      = some (overwrite buff 0 (slice (n * ch.numFrames) ch.numFrames strm),
      strm.drop ((n + 1) * ch.numFrames)) := by
  induction n generalizing buff strm with
  | zero =>
      rw [getReps, getFrames_eq hfit (Nat.le_refl _) hbuff (by omega), Nat.sub_self, Nat.zero_mul,
        slice_zero_off, Nat.zero_add, Nat.one_mul]
      rfl
  | succ n ih =>
      have hscale : (n + 1 + 1) * ch.numFrames = ch.numFrames + (n + 1) * ch.numFrames := by ring
      have hround : (strm.take ch.numFrames).length = ch.numFrames := by
        rw [List.length_take]
        omega
      have hfirst : 0 + (strm.take ch.numFrames).length ≤ buff.length := by omega
      have hnext : (slice (n * ch.numFrames) ch.numFrames (strm.drop ch.numFrames)).length
          = ch.numFrames := by
        refine length_slice ?_
        have := Nat.add_one_mul n ch.numFrames
        rw [List.length_drop]
        omega
      rw [getReps, getFrames_eq hfit (Nat.le_refl _) hbuff (by omega), Nat.sub_self]
      change getReps p ch (n + 1) _ _ = _
      rw [ih (by rw [length_overwrite hfirst, hbuff]) (by rw [List.length_drop]; omega),
        overwrite_overwrite_self hfirst (by rw [hround, hnext]), List.drop_drop, ← hscale]
      simp only [slice, List.drop_drop]
      rw [show ch.numFrames + n * ch.numFrames = (n + 1) * ch.numFrames by ring]

variable (p ch buff strm) in
/-- `get` returns once it has read as many words as it is configured for. -/
theorem getFrames_returns {i : Nat} (hstrm : i ≤ strm.length) :
    ∃ buff', getFrames p ch i buff strm = some (buff', strm.drop i) := by
  induction i generalizing buff strm with
  | zero => exact ⟨buff, rfl⟩
  | succ i ih =>
      obtain ⟨tmp, strm, rfl⟩ : ∃ tmp rest, strm = tmp :: rest :=
        List.exists_cons_of_length_pos (by omega)
      exact ih _ _ (by simpa using hstrm)

variable (p ch buff strm) in
theorem getReps_returns {n : Nat} (hstrm : n * ch.numFrames ≤ strm.length) :
    ∃ buff', getReps p ch n buff strm = some (buff', strm.drop (n * ch.numFrames)) := by
  induction n generalizing buff strm with
  | zero => exact ⟨buff, by rw [Nat.zero_mul]; rfl⟩
  | succ n ih =>
      rw [Nat.succ_mul] at hstrm
      obtain ⟨buff₁, hframes⟩ := getFrames_returns p ch buff strm (i := ch.numFrames) (by omega)
      obtain ⟨buff', hreps⟩ := ih buff₁ (strm.drop ch.numFrames) (by rw [List.length_drop]; omega)
      refine ⟨buff', ?_⟩
      rw [getReps, hframes]
      change getReps p ch n buff₁ _ = _
      rw [hreps, List.drop_drop, Nat.succ_mul, Nat.add_comm]

/-- Whatever is received, the buffer stays an array of stream words. -/
theorem getFrames_spec {i : Nat} {buff' rest : List Beat}
    (h : getFrames p ch i buff strm = some (buff', rest)) (hbuff : Sized p buff)
    (hstrm : Sized p strm) :
    buff'.length = buff.length ∧ Sized p buff' ∧ Sized p rest := by
  induction i generalizing buff strm with
  | zero =>
      simp only [getFrames, Option.some.injEq, Prod.mk.injEq] at h
      obtain ⟨rfl, rfl⟩ := h
      exact ⟨rfl, hbuff, hstrm⟩
  | succ i ih =>
      cases strm with
      | nil => cases h
      | cons tmp strm =>
          obtain ⟨hlen, hsized⟩ := ih h
            (fun b hb => (List.mem_or_eq_of_mem_set hb).elim (hbuff b) fun heq =>
              heq ▸ hstrm tmp (by simp))
            fun b hb => hstrm b (by simp [hb])
          exact ⟨hlen.trans List.length_set, hsized⟩

/-- What a buffer holds was there before or has been read. -/
theorem getFrames_mem {i : Nat} {buff' rest : List Beat}
    (h : getFrames p ch i buff strm = some (buff', rest)) :
    rest = strm.drop i ∧ ∀ b ∈ buff', b ∈ buff ∨ b ∈ strm.take i := by
  induction i generalizing buff strm with
  | zero =>
      simp only [getFrames, Option.some.injEq, Prod.mk.injEq] at h
      obtain ⟨rfl, rfl⟩ := h
      exact ⟨rfl, fun b hb => Or.inl hb⟩
  | succ i ih =>
      cases strm with
      | nil => cases h
      | cons tmp strm =>
          obtain ⟨hrest, hmem⟩ := ih h
          refine ⟨hrest, fun b hb => ?_⟩
          rw [List.take_succ_cons, List.mem_cons]
          rcases hmem b hb with hold | hread
          · rcases List.mem_or_eq_of_mem_set hold with hold | heq
            · exact Or.inl hold
            · exact Or.inr (Or.inl heq)
          · exact Or.inr (Or.inr hread)

theorem getReps_mem {n : Nat} {buff' rest : List Beat}
    (h : getReps p ch n buff strm = some (buff', rest)) :
    ∀ b ∈ buff', b ∈ buff ∨ b ∈ strm.take (n * ch.numFrames) := by
  induction n generalizing buff strm with
  | zero =>
      simp only [getReps, Option.some.injEq, Prod.mk.injEq] at h
      obtain ⟨rfl, rfl⟩ := h
      exact fun b hb => Or.inl hb
  | succ n ih =>
      simp only [getReps, Option.bind_eq_bind, Option.bind_eq_some_iff] at h
      obtain ⟨⟨buff₁, strm₁⟩, hframes, hreps⟩ := h
      obtain ⟨rfl, hmem⟩ := getFrames_mem hframes
      intro b hb
      rw [Nat.succ_mul, Nat.add_comm, List.take_add, List.mem_append]
      rcases ih hreps b hb with hold | hread
      · rcases hmem b hold with hold | hread
        · exact Or.inl hold
        · exact Or.inr (Or.inl hread)
      · exact Or.inr (Or.inr hread)

theorem getReps_spec {n : Nat} {buff' rest : List Beat}
    (h : getReps p ch n buff strm = some (buff', rest)) (hbuff : Sized p buff)
    (hstrm : Sized p strm) : buff'.length = buff.length ∧ Sized p buff' := by
  induction n generalizing buff strm with
  | zero =>
      simp only [getReps, Option.some.injEq, Prod.mk.injEq] at h
      obtain ⟨rfl, rfl⟩ := h
      exact ⟨rfl, hbuff⟩
  | succ n ih =>
      simp only [getReps, Option.bind_eq_bind, Option.bind_eq_some_iff] at h
      obtain ⟨⟨buff₁, strm₁⟩, hframes, hreps⟩ := h
      obtain ⟨hlen, hbuff₁, hstrm₁⟩ := getFrames_spec hframes hbuff hstrm
      obtain ⟨hlen', hsized⟩ := ih hreps hbuff₁ hstrm₁
      exact ⟨hlen'.trans hlen, hsized⟩

end Get

/-! ### The writes of `store_buff` -/

section Store

variable {p : Platform} {ch : Channel} {buff : List Beat} {mem : List UInt8}

/-- The frames of a channel that its buffer keeps. -/
def Channel.kept (p : Platform) (ch : Channel) : Nat := min ch.numFrames p.depth

def Channel.keptWords (p : Platform) (ch : Channel) : Nat :=
  (ch.kept p + p.memRatio - 1) / p.memRatio

theorem keptWords_le : ch.keptWords p ≤ p.memDepth := by
  have hR := p.memRatio_pos
  have hle : ch.kept p ≤ p.depth := Nat.min_le_right _ _
  unfold Channel.keptWords
  rw [← Nat.lt_succ_iff, Nat.div_lt_iff_lt_mul hR, Nat.succ_mul, p.memDepth_mul]
  omega

theorem lt_keptWords {k : Nat} (hk : k * p.memRatio < ch.kept p) : k < ch.keptWords p := by
  have hR := p.memRatio_pos
  unfold Channel.keptWords
  rw [Nat.lt_div_iff_mul_lt hR]
  omega

/-- All branches of `store_buff` write the kept frames, the last word as far as it is filled. -/
theorem storeBuff_eq (hmode : ch.mode = .PERF_MODE) (buff : List Beat) :
    storeBuff p ch buff = (List.range (ch.keptWords p)).map fun i =>
      (u32 (i + ch.offsets),
        packWord p buff (i * p.memRatio) (min p.memRatio (ch.kept p - i * p.memRatio))) := by
  have hR := p.memRatio_pos
  have hmod := Nat.mod_lt ch.numFrames hR
  have hdiv := Nat.div_add_mod ch.numFrames p.memRatio
  rw [Nat.mul_comm] at hdiv
  -- the words before the end are filled
  have hfull : ∀ n ≤ ch.kept p / p.memRatio, ((List.range n).map fun i =>
        (u32 (i + ch.offsets), packWord p buff (i * p.memRatio) p.memRatio))
      = (List.range n).map fun i => (u32 (i + ch.offsets),
        packWord p buff (i * p.memRatio) (min p.memRatio (ch.kept p - i * p.memRatio))) := by
    intro n hn
    refine List.map_congr_left fun i hi => ?_
    have hle := Nat.mul_le_mul_right p.memRatio (Nat.lt_of_lt_of_le (List.mem_range.mp hi) hn)
    have hdown := Nat.div_mul_le_self (ch.kept p) p.memRatio
    rw [Nat.succ_mul] at hle
    rw [Nat.min_eq_left (by omega)]
  simp only [storeBuff, hmode]
  by_cases hbig : ch.numFrames > p.depth
  · have hkept : ch.kept p = p.memDepth * p.memRatio := by
      rw [Channel.kept, p.memDepth_mul, Nat.min_eq_right (by omega)]
    have hwords : ch.keptWords p = p.memDepth := by
      rw [Channel.keptWords, hkept, Nat.div_eq_iff hR]
      omega
    rw [if_pos hbig, hwords, hfull _ (by rw [hkept, Nat.mul_div_cancel _ hR])]
  · have hkept : ch.kept p = ch.numFrames := Nat.min_eq_left (by omega)
    rw [if_neg hbig, hfull _ (by rw [hkept])]
    by_cases hres : ch.numFrames % p.memRatio ≠ 0
    · have hwords : ch.keptWords p = ch.numFrames / p.memRatio + 1 := by
        rw [Channel.keptWords, hkept, Nat.div_eq_iff hR, Nat.succ_mul]
        omega
      rw [if_pos hres, hwords, List.range_succ, List.map_append, List.map_singleton, hkept,
        Nat.min_eq_right (by omega), show ch.numFrames - ch.numFrames / p.memRatio * p.memRatio
          = ch.numFrames % p.memRatio by omega]
    · have hwords : ch.keptWords p = ch.numFrames / p.memRatio := by
        rw [Channel.keptWords, hkept, Nat.div_eq_iff hR]
        omega
      rw [if_neg hres, hwords, List.append_nil]

theorem packWord_eq {base n : Nat} (hbuff : Sized p buff) (hfit : base + n ≤ buff.length) :
    packWord p buff base n = packed p (slice base n buff) := by
  induction n with
  | zero => rw [slice_zero_len, packed_nil]; rfl
  | succ n ih =>
      have hlen : (slice base n buff).length = n := length_slice (by omega)
      have hnext : buff.getD (base + n) [] = buff[base + n] := List.getD_eq_getElem _ _ (by omega)
      have hsucc : packWord p buff base (n + 1)
          = p.setRange (packWord p buff base n) n (buff.getD (base + n) []) := by
        simp [packWord, List.range_succ]
      have hpack := @setRange_packed p _ buff[base + n] (hbuff.slice base n)
      rw [hlen] at hpack
      rw [hsucc, ih (by omega), hnext, hpack, slice_succ (by omega)]

variable (p mem) in
/-- Words written one after the other are all read back, and nothing else changes. -/
theorem applyWrites_range (off n : Nat) (word : Nat → MemWord)
    (hword : ∀ i < n, (word i).length = p.memWidth) (hfit : (off + n) * p.memWidth ≤ mem.length) :
    (applyWrites p mem ((List.range n).map fun i => (off + i, word i))).length = mem.length
    ∧ (∀ i < n, p.readWord (applyWrites p mem ((List.range n).map fun i => (off + i, word i)))
        (off + i) = word i)
    ∧ ∀ o len, o + len ≤ off * p.memWidth ∨ (off + n) * p.memWidth ≤ o →
      slice o len (applyWrites p mem ((List.range n).map fun i => (off + i, word i)))
        = slice o len mem := by
  induction n with
  | zero => exact ⟨rfl, fun i hi => absurd hi (Nat.not_lt_zero i), fun o len _ => rfl⟩
  | succ n ih =>
      have hlast := hword n (Nat.lt_succ_self n)
      have hwidth : (off + (n + 1)) * p.memWidth = (off + n) * p.memWidth + p.memWidth :=
        Nat.succ_mul _ _
      obtain ⟨hlen, hread, hframe⟩ := ih (fun i hi => hword i (by omega)) (by omega)
      have hsucc : applyWrites p mem ((List.range (n + 1)).map fun i => (off + i, word i))
          = overwrite (applyWrites p mem ((List.range n).map fun i => (off + i, word i)))
            ((off + n) * p.memWidth) (word n) := by
        simp [applyWrites, List.range_succ]
      have hregion : (off + n + 1) * p.memWidth
          ≤ (applyWrites p mem ((List.range n).map fun i => (off + i, word i))).length := by
        rw [hlen]
        exact hfit
      have hinside : (off + n) * p.memWidth + (word n).length
          ≤ (applyWrites p mem ((List.range n).map fun i => (off + i, word i))).length := by
        rwa [hlast, ← Nat.succ_mul]
      rw [hsucc]
      refine ⟨(length_overwrite hinside).trans hlen, ?_, ?_⟩
      · intro i hi
        by_cases heq : i = n
        · subst heq
          exact readWord_overwrite_self hlast hregion
        · rw [readWord_overwrite_of_ne hlast hregion (by omega)]
          exact hread i (by omega)
      · intro o len hout
        have hbase : off * p.memWidth ≤ (off + n) * p.memWidth :=
          Nat.mul_le_mul_right _ (Nat.le_add_right _ _)
        rw [slice_overwrite_of_disjoint hinside (by omega)]
        exact hframe o len (by omega)

end Store

/-! ### All channels -/

/-- A channel that stores nothing, or stores into its own region. -/
structure PerfPlaced (p : Platform) (ch : Channel) (c : Nat) : Prop where
  mode_eq : ch.mode = .PERF_MODE
  offsets_eq : ch.numFrames ≠ 0 → ch.offsets = p.memDepth * c

section Stores

variable {p : Platform} {ch : Channel} {c : Nat} {buff : List Beat} {mem : List UInt8}

/-- Every write is inside the region. -/
theorem storeBuff_region (haddr : Addressable p) (hc : c < p.num_channels)
    (hplaced : PerfPlaced p ch c) {w : Nat × MemWord} (hw : w ∈ storeBuff p ch buff) :
    c * p.bufBytes ≤ w.1 * p.memWidth ∧ (w.1 + 1) * p.memWidth ≤ (c + 1) * p.bufBytes := by
  rw [storeBuff_eq hplaced.mode_eq] at hw
  obtain ⟨i, hi, rfl⟩ := List.mem_map.mp hw
  rw [List.mem_range] at hi
  have hle : ch.keptWords p ≤ p.memDepth := keptWords_le
  have hframes : ch.numFrames ≠ 0 := by
    intro hzero
    have hR := p.memRatio_pos
    have hnone : ch.keptWords p = 0 := by
      rw [Channel.keptWords, Channel.kept, hzero, Nat.zero_min, Nat.div_eq_of_lt (by omega)]
    omega
  simp only [hplaced.offsets_eq hframes, (region_index haddr hc (show i < p.memDepth by omega)).1]
  rw [← regionWord_mul, ← regionWord_mul]
  exact ⟨Nat.mul_le_mul_right _ (Nat.le_add_right _ _), Nat.mul_le_mul_right _ (by
    rw [Nat.mul_succ]
    omega)⟩

/-- One `store_buff`: the kept frames are in the region, and the rest of the memory is as before. -/
theorem storeBuff_spec (haddr : Addressable p) (hc : c < p.num_channels)
    (hplaced : PerfPlaced p ch c) (hlen : buff.length = p.depth) (hbuff : Sized p buff)
    (hmem : mem.length = p.num_channels * p.word_size * p.depth) :
    (applyWrites p mem (storeBuff p ch buff)).length = mem.length
    ∧ slice (c * p.bufBytes) (ch.kept p * p.word_size) (applyWrites p mem (storeBuff p ch buff))
      = (buff.take (ch.kept p)).flatten
    ∧ ∀ o len, o + len ≤ c * p.bufBytes ∨ (c + 1) * p.bufBytes ≤ o →
      slice o len (applyWrites p mem (storeBuff p ch buff)) = slice o len mem := by
  have hR := p.memRatio_pos
  by_cases hframes : ch.numFrames = 0
  · have hkept : ch.kept p = 0 := by rw [Channel.kept, hframes, Nat.zero_min]
    have hnone : storeBuff p ch buff = [] := by
      rw [storeBuff_eq hplaced.mode_eq, Channel.keptWords, hkept, Nat.div_eq_of_lt (by omega)]
      rfl
    rw [hnone, hkept, Nat.zero_mul, slice_zero_len]
    exact ⟨rfl, rfl, fun _ _ _ => rfl⟩
  have hkept : ch.kept p ≤ buff.length := hlen ▸ Nat.min_le_right _ _
  have hword : ∀ i, packWord p buff (i * p.memRatio) (min p.memRatio (ch.kept p - i * p.memRatio))
      = packed p (slice (i * p.memRatio) p.memRatio (buff.take (ch.kept p))) := by
    intro i
    by_cases hin : i * p.memRatio ≤ ch.kept p
    · rw [packWord_eq hbuff (by omega)]
      congr 1
      rw [slice, slice, List.drop_take, List.take_take]
    · rw [Nat.sub_eq_zero_of_le (by omega), Nat.min_zero, slice,
        List.drop_of_length_le (by rw [List.length_take]; omega), List.take_nil, packed_nil]
      rfl
  have hwrites : storeBuff p ch buff = (List.range (ch.keptWords p)).map fun i =>
      (p.memDepth * c + i,
        packed p (slice (i * p.memRatio) p.memRatio (buff.take (ch.kept p)))) := by
    rw [storeBuff_eq hplaced.mode_eq]
    refine List.map_congr_left fun i hi => ?_
    have hlt : i < p.memDepth := Nat.lt_of_lt_of_le (List.mem_range.mp hi) keptWords_le
    rw [hword, hplaced.offsets_eq hframes, (region_index haddr hc hlt).1]
  have hregion := region_le hc
  have htop : (p.memDepth * c + ch.keptWords p) * p.memWidth ≤ c * p.bufBytes + p.bufBytes := by
    rw [← regionWord_mul, ← memDepth_mul_memWidth, ← Nat.add_mul]
    exact Nat.mul_le_mul_right _ (Nat.add_le_add_left keptWords_le _)
  have hsized : Sized p (buff.take (ch.kept p)) := fun b hb => hbuff b (List.mem_of_mem_take hb)
  obtain ⟨hlength, hread, hframe⟩ := applyWrites_range p mem (p.memDepth * c) (ch.keptWords p)
    (fun i => packed p (slice (i * p.memRatio) p.memRatio (buff.take (ch.kept p))))
    (fun i _ => length_packed (hsized.slice _ _) (by
      rw [length_slice_eq_min]
      exact Nat.min_le_left _ _)) (by omega)
  rw [← hwrites] at hlength hread hframe
  have htake : (buff.take (ch.kept p)).length = ch.kept p := by
    rw [List.length_take]
    omega
  refine ⟨hlength, ?_, ?_⟩
  · have hdata := slice_of_words (applyWrites p mem (storeBuff p ch buff)) (p.memDepth * c) hsized
      fun k hk => hread k (lt_keptWords (htake ▸ hk))
    rwa [regionWord_mul, htake] at hdata
  · intro o len hout
    rw [Nat.succ_mul] at hout
    refine hframe o len ?_
    rw [regionWord_mul]
    omega

/-- `store_buffs`: afterwards every region holds the kept frames of its own channel. -/
theorem storeBuffs_spec {chs : Channels} {buffs : Nat → List Beat} (haddr : Addressable p)
    (hplaced : ∀ c < p.num_channels, PerfPlaced p (chs.from_aie_ch c) c)
    (hlen : ∀ c < p.num_channels, (buffs c).length = p.depth)
    (hbuff : ∀ c < p.num_channels, Sized p (buffs c))
    (hmem : mem.length = p.num_channels * p.word_size * p.depth) :
    (storeBuffs p chs buffs mem).length = mem.length
    ∧ ∀ c < p.num_channels,
      slice (c * p.bufBytes) ((chs.from_aie_ch c).kept p * p.word_size) (storeBuffs p chs buffs mem)
        = ((buffs c).take ((chs.from_aie_ch c).kept p)).flatten := by
  suffices h : ∀ n ≤ p.num_channels,
      ((List.range n).foldl (fun mem c => applyWrites p mem
        (storeBuff p (chs.from_aie_ch c) (buffs c))) mem).length = mem.length
      ∧ ∀ c < n, slice (c * p.bufBytes) ((chs.from_aie_ch c).kept p * p.word_size)
          ((List.range n).foldl (fun mem c => applyWrites p mem
            (storeBuff p (chs.from_aie_ch c) (buffs c))) mem)
        = ((buffs c).take ((chs.from_aie_ch c).kept p)).flatten from h _ (Nat.le_refl _)
  intro n
  induction n with
  | zero => exact fun _ => ⟨rfl, fun c hc => absurd hc (Nat.not_lt_zero c)⟩
  | succ n ih =>
      intro hn
      obtain ⟨hlength, hdone⟩ := ih (by omega)
      rw [List.range_succ, List.foldl_append, List.foldl_cons, List.foldl_nil]
      obtain ⟨hlength', hdata, hframe⟩ := storeBuff_spec haddr (by omega) (hplaced n (by omega))
        (hlen n (by omega)) (hbuff n (by omega)) (hlength.trans hmem)
      refine ⟨hlength'.trans hlength, ?_⟩
      intro c hc
      by_cases heq : c = n
      · subst heq
        exact hdata
      · rw [hframe _ _ (Or.inl ?_)]
        · exact hdone c (by omega)
        · have hkept : (chs.from_aie_ch c).kept p * p.word_size ≤ p.bufBytes := by
            rw [Platform.bufBytes, Nat.mul_comm p.word_size]
            exact Nat.mul_le_mul_right _ (Nat.min_le_right _ _)
          have hnext := Nat.mul_le_mul_right p.bufBytes (show c + 1 ≤ n by omega)
          rw [Nat.succ_mul] at hnext
          omega

end Stores

/-! ### From the stream to the user's buffers -/

/-- `get` has returned on every channel: what the buffers held, what the AIE delivers, and what the
buffers hold now. -/
structure PerfReceived (p : Platform) (chs : Channels)
    (uram strm buffs : Nat → List Beat) : Prop where
  uram_length : ∀ c < p.num_channels, (uram c).length = p.depth
  uram_sized : ∀ c < p.num_channels, Sized p (uram c)
  strm_sized : ∀ c < p.num_channels, Sized p (strm c)
  returned : ∀ c < p.num_channels, ∃ rest,
    getPerf p (chs.from_aie_ch c) (uram c) (strm c) = some (buffs c, rest)

structure PerfCopied (p : Platform) (buffs : Nat → List Beat) (a a' : TestHarnessArgs) : Prop where
  idx_eq : a'.idx = a.idx
  size_eq : a'.size_in_byte = a.size_in_byte
  kept : a.size / p.word_size < 2 ^ 32 → a'.data.bytes.take (perfBytes p a)
    = ((buffs a.fromChn).take (min (a.size / p.word_size) p.depth)).flatten
  beyond : a'.data.bytes.drop (perfBytes p a) = a.data.bytes.drop (perfBytes p a)

section EndToEnd

variable {p : Platform} {t' : Transaction} {args : List TestHarnessArgs} {a : TestHarnessArgs}

theorem perfPlaced_of_layout (hlayout : PerfLayout p t' args) {c : Nat} (hc : c < p.num_channels) :
    PerfPlaced p ((loadCfg p t'.cfg_ptr).from_aie_ch c) c := by
  change PerfPlaced p (loadChannel p t'.cfg_ptr 4 c) c
  by_cases h : ∀ a ∈ args, a.IsFrom p.toSetup → a.fromChn ≠ c
  · rw [hlayout.unlisted_from c hc h]
    exact ⟨rfl, fun hne => absurd rfl hne⟩
  · simp only [not_forall, not_not] at h
    obtain ⟨a, ha, hafrom, rfl⟩ := h
    rw [(hlayout.listed_from a ha hafrom).1]
    exact ⟨rfl, fun _ => rfl⟩

/-- A full or partly filled region, in bytes. -/
theorem perfBytes_eq (hchecked : a.size % p.word_size = 0) :
    perfBytes p a = min (a.size / p.word_size) p.depth * p.word_size := by
  rw [← Nat.mul_min_mul_right, Nat.div_mul_cancel (Nat.dvd_of_mod_eq_zero hchecked), perfBytes,
    Platform.bufBytes, Nat.mul_comm p.depth]

theorem outputBytes_perf (haddr : Addressable p) {c : Nat} (hc : c < p.num_channels) :
    outputBytes p.toSetup .PERF_MODE a = perfBytes p a := by
  simp only [outputBytes, buffBytes_eq haddr hc, perfBytes]
  split <;> omega

/-- What `handleOutputs` leaves after the kernel has stored the buffers. -/
theorem perfCopied_of_stored (haddr : Addressable p) (hlayout : PerfLayout p t' args)
    (hbuffer : ∀ a ∈ args, a.IsFrom p.toSetup → a.size ≤ a.data.bytes.length)
    {buffs : Nat → List Beat} (hlen : ∀ c < p.num_channels, (buffs c).length = p.depth)
    (hsized : ∀ c < p.num_channels, Sized p (buffs c)) {mem : List UInt8} {perf_ptr : List Nat}
    (hmem : mem.length = t'.from_aie_ptr.length) (hperf : perf_ptr.length = p.num_channels * 4) :
    ∃ t'', { t' with
        from_aie_ptr := storeBuffs p (loadCfg p t'.cfg_ptr) buffs mem, perf_ptr }.handleOutputs
        = .ok t'' ∧ t''.status = t'.status ∧ t''.result_valid = t'.result_valid
      ∧ List.Forall₂ (fun a a' => a.IsFrom p.toSetup → PerfCopied p buffs a a') args
      t''.args_rec := by
  obtain ⟨hlength, hstored⟩ :=
    storeBuffs_spec haddr (fun c hc => perfPlaced_of_layout hlayout hc) hlen
    hsized (hmem.trans hlayout.from_length)
  have hregion : ∀ {a : TestHarnessArgs}, a.IsFrom p.toSetup →
      a.fromChn * p.bufBytes + perfBytes p a ≤ p.num_channels * p.word_size * p.depth := by
    intro a hafrom
    have := region_le hafrom.fromChn_lt
    have : perfBytes p a ≤ p.bufBytes := Nat.min_le_right _ _
    omega
  obtain ⟨t'', hout, hstatus, hvalid, hall⟩ := handleOutputs_ok (p := p)
    (t := { t' with from_aie_ptr := storeBuffs p (loadCfg p t'.cfg_ptr) buffs mem, perf_ptr })
    hlayout.setup_eq hperf (by
      intro a ha hafrom
      have hmem' : a ∈ args := hlayout.args_eq ▸ ha
      rw [show _ = t'.setup from rfl, hlayout.setup_eq] at hafrom
      have hsize := hbuffer a hmem' hafrom
      have hlt := regionWord_lt haddr hafrom.fromChn_lt
      have hle : perfBytes p a ≤ a.size := Nat.min_le_left _ _
      refine ⟨_, (hlayout.listed_from a hmem' hafrom).2, ?_, ?_, ?_⟩
      · show p.memDepth * a.fromChn * t'.setup.memWidth < _
        rw [hlayout.setup_eq]
        omega
      · show p.memDepth * a.fromChn * t'.setup.memWidth + outputBytes t'.setup t'.mode a ≤ _
        rw [hlayout.setup_eq, hlayout.mode_eq, outputBytes_perf haddr hafrom.fromChn_lt,
          regionWord_mul, hlength, hmem, hlayout.from_length]
        exact hregion hafrom
      · show outputBytes t'.setup t'.mode a ≤ _
        rw [hlayout.setup_eq, hlayout.mode_eq, outputBytes_perf haddr hafrom.fromChn_lt]
        omega)
  refine ⟨t'', hout, hstatus, hvalid, ?_⟩
  rw [show ({ t' with from_aie_ptr := storeBuffs p (loadCfg p t'.cfg_ptr) buffs mem, perf_ptr } :
    Transaction).args_rec = args from hlayout.args_eq] at hall
  refine forall₂_imp_of_mem hall ?_
  intro a ha a' houtput hafrom
  have hc := hafrom.fromChn_lt
  obtain ⟨hchannel, hoffset⟩ := hlayout.listed_from a ha hafrom
  obtain ⟨off, hoff, hbytes⟩ := houtput.bytes_eq
    (show a.IsFrom t'.setup by rw [hlayout.setup_eq]; exact hafrom)
  obtain rfl : p.memDepth * a.fromChn = off := Option.some.inj (hoffset.symm.trans hoff)
  simp only [hlayout.setup_eq, hlayout.mode_eq, outputBytes_perf haddr hc, regionWord_mul] at hbytes
  have hslice : (slice (a.fromChn * p.bufBytes) (perfBytes p a)
      (storeBuffs p (loadCfg p t'.cfg_ptr) buffs mem)).length = perfBytes p a := by
    refine length_slice ?_
    rw [hlength, hmem, hlayout.from_length]
    exact hregion hafrom
  have hfit : perfBytes p a ≤ a.data.bytes.length :=
    (Nat.min_le_left _ _).trans (hbuffer a ha hafrom)
  refine ⟨houtput.idx_eq, houtput.size_eq, ?_, ?_⟩
  · intro hframes
    have hkept : ((loadCfg p t'.cfg_ptr).from_aie_ch a.fromChn).kept p
        = min (a.size / p.word_size) p.depth := by
      show (loadChannel p t'.cfg_ptr 4 a.fromChn).kept p = _
      rw [hchannel]
      exact congrArg (min · p.depth) (u32_of_lt hframes)
    have hdata := hstored a.fromChn hc
    rw [hkept, ← perfBytes_eq (hlayout.checked a ha).2] at hdata
    rw [hbytes, ← hdata]
    exact take_overwrite_zero hslice hfit
  · rw [hbytes, overwrite, List.take_zero, List.nil_append, Nat.zero_add, hslice,
      List.drop_append_of_le_length (by omega), List.drop_of_length_le (by omega), List.nil_append]

/-- What the PL decodes for an argument that fits, with nothing cut off. -/
structure PerfDecoded (p : Platform) (t : Transaction) (a : TestHarnessArgs) : Prop where
  fits : a.size / p.word_size ≤ p.depth
  frames_eq : ((loadCfg p t.cfg_ptr).from_aie_ch a.fromChn).numFrames = a.size / p.word_size
  rep_eq : ((loadCfg p t.cfg_ptr).from_aie_ch a.fromChn).numRep = a.repetition.toNat

theorem perfDecoded (haddr : Addressable p) (hlayout : PerfLayout p t' args) (ha : a ∈ args)
    (hafrom : a.IsFrom p.toSetup) (hrep : a.repetition.toNat < 2 ^ 32)
    (hsize : a.size ≤ p.bufBytes) :
    PerfDecoded p t' a := by
  have hfit : a.size / p.word_size ≤ p.depth := by
    have := Nat.div_le_div_right (c := p.word_size) hsize
    rwa [Platform.bufBytes, Nat.mul_div_cancel_left _ p.word_pos] at this
  have hdepth : p.depth ≤ p.bufBytes := Nat.le_mul_of_pos_left _ p.word_pos
  have hlt := bufBytes_lt haddr hafrom.fromChn_lt
  have hchannel : (loadCfg p t'.cfg_ptr).from_aie_ch a.fromChn = perfChannel p a a.fromChn :=
    (hlayout.listed_from a ha hafrom).1
  exact ⟨hfit, by rw [hchannel]; exact u32_of_lt (by omega), by rw [hchannel]; exact u32_of_lt hrep⟩

/-- The buffer of an argument that fits ends up with the last repetition. -/
theorem last_repetition {uram strm buffs : Nat → List Beat} {a' : TestHarnessArgs}
    (hrun : PerfReceived p (loadCfg p t'.cfg_ptr) uram strm buffs) (hdecoded : PerfDecoded p t' a)
    (hafrom : a.IsFrom p.toSetup) (hrep : 1 ≤ a.repetition.toNat) (hsize : a.size ≤ p.bufBytes)
    (hstrm : (strm a.fromChn).length = a.repetition.toNat * (a.size / p.word_size))
    (hcopied : PerfCopied p buffs a a') :
    a'.data.bytes.take a.size
      = (slice ((a.repetition.toNat - 1) * (a.size / p.word_size)) (a.size / p.word_size)
          (strm a.fromChn)).flatten := by
  obtain ⟨hfit, hframes, hnumRep⟩ := hdecoded
  have hc := hafrom.fromChn_lt
  have hrep₁ : a.repetition.toNat = a.repetition.toNat - 1 + 1 := by omega
  obtain ⟨rest, hreturned⟩ := hrun.returned a.fromChn hc
  rw [getPerf, hnumRep, hrep₁, getReps_eq (by rw [hframes]; exact hfit) (hrun.uram_length _ hc)
    (by rw [hframes, ← hrep₁, hstrm]), hframes, Option.some.injEq, Prod.mk.injEq] at hreturned
  have hround : (slice ((a.repetition.toNat - 1) * (a.size / p.word_size)) (a.size / p.word_size)
      (strm a.fromChn)).length = a.size / p.word_size := by
    refine length_slice ?_
    rw [hstrm, ← Nat.succ_mul, Nat.succ_eq_add_one, ← hrep₁]
  have hkept := hcopied.kept (hframes ▸ u32_lt _)
  rw [perfBytes, Nat.min_eq_left hsize, Nat.min_eq_left hfit, ← hreturned.1] at hkept
  rw [hkept]
  congr 1
  exact take_overwrite_zero hround (by rw [hrun.uram_length _ hc]; exact hfit)

theorem PerfReceived.buffs_ok {uram strm buffs : Nat → List Beat} {chs : Channels}
    (hrun : PerfReceived p chs uram strm buffs) {c : Nat} (hc : c < p.num_channels) :
    (buffs c).length = p.depth ∧ Sized p (buffs c) := by
  obtain ⟨rest, hget⟩ := hrun.returned c hc
  obtain ⟨hlen, hsized⟩ := getReps_spec hget (hrun.uram_sized c hc) (hrun.strm_sized c hc)
  exact ⟨hlen.trans (hrun.uram_length c hc), hsized⟩

end EndToEnd

/-- The buffers of all arguments that fit end up with the last repetition, and no channel writes
outside its own region. -/
theorem getPerf_ok (p : Platform) (t t' : Transaction) (args : List TestHarnessArgs)
    (uram strm buffs : Nat → List Beat) (mem : List UInt8) (perf_ptr : List Nat)
    (haddr : Addressable p) (hsetup : t.setup = p.toSetup) (hmode : t.mode = .PERF_MODE)
    (hdistinct : DistinctChannels args)
    (hbuffer : ∀ a ∈ args, a.IsFrom p.toSetup → a.size ≤ a.data.bytes.length)
    (hinputs : t.handleInputs args = .ok t')
    (hrun : PerfReceived p (loadCfg p t'.cfg_ptr) uram strm buffs)
    (hmem : mem.length = t'.from_aie_ptr.length) (hperf : perf_ptr.length = p.num_channels * 4) :
    (∀ c < p.num_channels, ∀ buff,
      ∀ w ∈ storeBuff p ((loadCfg p t'.cfg_ptr).from_aie_ch c) buff,
        c * p.bufBytes ≤ w.1 * p.memWidth ∧ (w.1 + 1) * p.memWidth ≤ (c + 1) * p.bufBytes)
    ∧ (∀ a ∈ args, a.IsFrom p.toSetup → a.repetition.toNat < 2 ^ 32 → a.size ≤ p.bufBytes →
        ∀ uram strm, strm.length = a.repetition.toNat * (a.size / p.word_size) →
        ∃ buff, getPerf p ((loadCfg p t'.cfg_ptr).from_aie_ch a.fromChn) uram strm
          = some (buff, []))
    ∧ ∃ t'', { t' with
        from_aie_ptr := storeBuffs p (loadCfg p t'.cfg_ptr) buffs mem, perf_ptr }.handleOutputs
        = .ok t'' ∧
      List.Forall₂ (fun a a' => a.IsFrom p.toSetup → 1 ≤ a.repetition.toNat →
        a.repetition.toNat < 2 ^ 32 → a.size ≤ p.bufBytes →
        (strm a.fromChn).length = a.repetition.toNat * (a.size / p.word_size) →
        a'.data.bytes.take a.size
          = (slice ((a.repetition.toNat - 1) * (a.size / p.word_size)) (a.size / p.word_size)
              (strm a.fromChn)).flatten) args t''.args_rec := by
  have hlayout := perfLayout_of_handleInputs haddr hsetup hmode hdistinct hinputs
  have hdecoded : ∀ a ∈ args, a.IsFrom p.toSetup → a.repetition.toNat < 2 ^ 32 →
      a.size ≤ p.bufBytes → PerfDecoded p t' a :=
    fun a ha hafrom hrep hsize => perfDecoded haddr hlayout ha hafrom hrep hsize
  refine ⟨fun c hc buff w hw => storeBuff_region haddr hc (perfPlaced_of_layout hlayout hc) hw, ?_,
    ?_⟩
  · intro a ha hafrom hrep hsize uram strm hstrm
    obtain ⟨-, hframes, hnumRep⟩ := hdecoded a ha hafrom hrep hsize
    obtain ⟨buff, hget⟩ := getReps_returns p
      ((loadCfg p t'.cfg_ptr).from_aie_ch a.fromChn) uram strm (n := a.repetition.toNat)
      (by rw [hframes, hstrm])
    refine ⟨buff, ?_⟩
    rw [getPerf, hnumRep, hget, hframes, List.drop_of_length_le (by rw [hstrm])]
  obtain ⟨t'', hout, -, -, hall⟩ := perfCopied_of_stored haddr hlayout hbuffer
    (fun c hc => (hrun.buffs_ok hc).1) (fun c hc => (hrun.buffs_ok hc).2) hmem hperf
  refine ⟨t'', hout, forall₂_imp_of_mem hall ?_⟩
  intro a ha a' hcopied hafrom hrep hrep' hsize hstrm
  exact last_repetition hrun (hdecoded a ha hafrom hrep' hsize) hafrom hrep hsize hstrm
    (hcopied hafrom)

theorem getPerf_ok_sole : ∃ t' t'', (soleTransaction .PERF_MODE).handleInputs
      [soleOutput 2 (by decide)] = .ok t' ∧
    { t' with
      from_aie_ptr := storeBuffs solePlatform (loadCfg solePlatform t'.cfg_ptr)
        (fun _ => List.replicate 2 [1, 2, 3, 4] ++ List.replicate 14 [0, 0, 0, 0]) t'.from_aie_ptr
      perf_ptr := List.replicate 4 0 }.handleOutputs = .ok t'' ∧
    ∀ a' ∈ t''.args_rec, a'.data.bytes.take 8 = [1, 2, 3, 4, 1, 2, 3, 4] := by
  obtain ⟨t', hinputs, htest⟩ := exists_of_test (e := (soleTransaction .PERF_MODE).handleInputs
    [soleOutput 2 (by decide)]) (fun t' : Transaction => decide
      (loadChannel solePlatform t'.cfg_ptr 4 0 = ⟨.PERF_MODE, 2, 1, 0, 0⟩)) (by decide +kernel)
  have hchannel := of_decide_eq_true htest
  have hzero : ∀ {c : Nat}, c < solePlatform.num_channels → c = 0 := fun hc => Nat.lt_one_iff.mp hc
  obtain ⟨-, -, t'', hout, hall⟩ := getPerf_ok solePlatform _ t' _
    (fun _ => List.replicate 16 [0, 0, 0, 0]) (fun _ => List.replicate 2 [1, 2, 3, 4])
    (fun _ => List.replicate 2 [1, 2, 3, 4] ++ List.replicate 14 [0, 0, 0, 0]) t'.from_aie_ptr
    (List.replicate 4 0) (by decide) rfl rfl (by decide) (by decide) hinputs
    ⟨fun _ _ => rfl, fun _ _ => sized_replicate rfl, fun _ _ => sized_replicate rfl, fun c hc => by
      obtain rfl := hzero hc
      show ∃ rest, getPerf solePlatform (loadChannel solePlatform t'.cfg_ptr 4 0) _ _ = _
      rw [hchannel]
      exact ⟨[], rfl⟩⟩ rfl rfl
  refine ⟨t', t'', hinputs, hout, ?_⟩
  obtain ⟨a', _, hcopied, hnil, hargs⟩ := List.forall₂_cons_left_iff.mp hall
  rw [hargs, List.forall₂_nil_left_iff.mp hnil]
  intro b hb
  rw [List.mem_singleton.mp hb]
  exact hcopied (by decide) (by decide) (by decide) (by decide) (by decide)

end AieTestHarness
