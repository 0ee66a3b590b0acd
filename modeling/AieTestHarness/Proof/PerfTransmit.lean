import AieTestHarness.Proof.PerfLayout
import AieTestHarness.Proof.Words

/-!
# Performance mode towards the AIE

A channel cuts its region of the memory into its URAM buffer and then plays the buffer round and
round, once for each repetition and from the start each time. A pass over the buffer after the first
one masks what it sends with the number of the pass.
-/

namespace AieTestHarness

open Slices Loops

section Load

variable {p : Platform} {ch : Channel} {mem : List UInt8} {buff : List Beat}

/-- Stream word `k` of the region of a channel. -/
def regionBeat (p : Platform) (ch : Channel) (mem : List UInt8) (k : Nat) : Beat :=
  p.range (p.readWord mem (u32 (k / p.memRatio + ch.offsets))) (k % p.memRatio)

theorem div_mod_of_word {R n k : Nat} (hlow : n * R ≤ k) (hhigh : k < n * R + R) :
    k / R = n ∧ k % R = k - n * R := by
  have hdiv : k / R = n := by
    rw [Nat.div_eq_iff (by omega)]
    omega
  exact ⟨hdiv, by rw [Nat.mod_eq_sub_mul_div, hdiv, Nat.mul_comm]⟩

theorem length_loadWords (n : Nat) : (loadWords p ch mem n buff).length = buff.length := by
  unfold loadWords
  exact List.foldlRecOn (motive := fun b : List Beat => b.length = buff.length) _ _ rfl
    fun b hb i _ => (length_fill _ _ _ _).trans hb

variable (p ch mem buff) in
theorem getElem?_loadWords {n : Nat} (h : n * p.memRatio ≤ buff.length) (k : Nat) :
    (loadWords p ch mem n buff)[k]?
      = if k < n * p.memRatio then some (regionBeat p ch mem k) else buff[k]? := by
  induction n with
  | zero => simp [loadWords]
  | succ n ih =>
      rw [Nat.succ_mul] at h
      have hsucc : loadWords p ch mem (n + 1) buff = fill (loadWords p ch mem n buff)
          (n * p.memRatio) p.memRatio (p.range (p.readWord mem (u32 (n + ch.offsets)))) := by
        simp [loadWords, List.range_succ]
      rw [hsucc, getElem?_fill (by rw [length_loadWords]; omega), ih (by omega), Nat.succ_mul]
      by_cases hlow : k < n * p.memRatio
      · rw [if_neg (by omega), if_pos hlow, if_pos (by omega)]
      · by_cases hmid : k < n * p.memRatio + p.memRatio
        · obtain ⟨hdiv, hmod⟩ := div_mod_of_word (k := k) (by omega) hmid
          rw [if_pos (by omega), if_pos hmid, regionBeat, hdiv, hmod]
        · rw [if_neg (by omega), if_neg hlow, if_neg hmid]

/-- What `load_buff` leaves: the frames of the channel as far as they fit. -/
theorem getElem?_loadBuff (hmode : ch.mode = .PERF_MODE) (hbuff : buff.length = p.depth) (k : Nat) :
    (loadBuff p ch mem buff)[k]?
      = if k < min ch.numFrames p.depth then some (regionBeat p ch mem k) else buff[k]? := by
  have hR := p.memRatio_pos
  have hdiv := Nat.div_add_mod ch.numFrames p.memRatio
  have hmod := Nat.mod_lt ch.numFrames hR
  rw [Nat.mul_comm] at hdiv
  simp only [loadBuff, hmode]
  by_cases hbig : ch.numFrames > p.depth
  · rw [if_pos hbig, getElem?_loadWords _ _ _ _ (by rw [p.memDepth_mul, hbuff]), p.memDepth_mul,
      Nat.min_eq_right (by omega)]
  · rw [if_neg hbig, Nat.min_eq_left (by omega)]
    have hwords := getElem?_loadWords p ch mem buff (n := ch.numFrames / p.memRatio) (by omega) k
    by_cases hres : ch.numFrames % p.memRatio ≠ 0
    · rw [if_pos hres, getElem?_fill (by rw [length_loadWords]; omega), hdiv, hwords]
      by_cases hlow : k < ch.numFrames / p.memRatio * p.memRatio
      · rw [if_neg (by omega), if_pos hlow, if_pos (by omega)]
      · by_cases hmid : k < ch.numFrames
        · obtain ⟨hkdiv, hkmod⟩ := div_mod_of_word (R := p.memRatio) (k := k)
            (n := ch.numFrames / p.memRatio) (by omega) (by omega)
          rw [if_pos (by omega), if_pos hmid, regionBeat, hkdiv, hkmod]
        · rw [if_neg (by omega), if_neg hlow, if_neg hmid]
    · rw [if_neg hres, hwords]
      congr 2
      omega

/-- All words read are words of the region. -/
theorem loadReads_region {w : Nat} (h : w ∈ loadReads p ch) :
    ∃ i < p.memDepth, w = u32 (i + ch.offsets) := by
  have hR := p.memRatio_pos
  unfold loadReads at h
  split at h
  · cases h
  · split at h
    · obtain ⟨i, hi, rfl⟩ := List.mem_map.mp h
      exact ⟨i, List.mem_range.mp hi, rfl⟩
    · rename_i hsmall
      have hle : ch.numFrames / p.memRatio ≤ p.memDepth :=
        Nat.div_le_div_right (Nat.le_of_not_lt hsmall)
      rcases List.mem_append.mp h with hfull | hres
      · obtain ⟨i, hi, rfl⟩ := List.mem_map.mp hfull
        exact ⟨i, Nat.lt_of_lt_of_le (List.mem_range.mp hi) hle, rfl⟩
      · split at hres
        · rename_i hne
          refine ⟨_, ?_, List.mem_singleton.mp hres⟩
          rw [Nat.div_lt_iff_lt_mul hR, p.memDepth_mul]
          refine Nat.lt_of_le_of_ne (Nat.le_of_not_lt hsmall) fun heq => hne ?_
          rw [heq, ← p.memDepth_mul, Nat.mul_mod_left]
        · cases hres

/-- The word of each frame that is kept was read. -/
theorem mem_loadReads (hmode : ch.mode = .PERF_MODE) {k : Nat}
    (hk : k < min ch.numFrames p.depth) : u32 (k / p.memRatio + ch.offsets) ∈ loadReads p ch := by
  have hR := p.memRatio_pos
  have hdiv := Nat.div_add_mod ch.numFrames p.memRatio
  rw [Nat.mul_comm] at hdiv
  simp only [loadReads, hmode]
  split
  · refine List.mem_map_of_mem (List.mem_range.mpr ?_)
    rw [Nat.div_lt_iff_lt_mul hR, p.memDepth_mul]
    omega
  · by_cases hlow : k / p.memRatio < ch.numFrames / p.memRatio
    · exact List.mem_append_left _
        (List.mem_map_of_mem (f := fun i => u32 (i + ch.offsets)) (List.mem_range.mpr hlow))
    · have heq : k / p.memRatio = ch.numFrames / p.memRatio :=
        Nat.le_antisymm (Nat.div_le_div_right (by omega)) (Nat.le_of_not_lt hlow)
      have hkdiv := Nat.div_add_mod k p.memRatio
      rw [Nat.mul_comm, heq] at hkdiv
      refine List.mem_append_right _ ?_
      rw [if_pos (by omega), heq]
      exact List.mem_singleton_self _

end Load

section Feed

variable {p : Platform} {ch : Channel} {buff : List Beat}

theorem feedFrames_eq {n : Nat} (h : n ≤ ch.numFrames) :
    feedFrames p ch buff n = (List.range' (ch.numFrames - n) n).map (feedBeat p buff) := by
  induction n with
  | zero => rfl
  | succ n ih =>
      rw [feedFrames, ih (by omega), List.range'_succ, List.map_cons,
        show ch.numFrames - (n + 1) + 1 = ch.numFrames - n by omega]

def feedRound (p : Platform) (ch : Channel) (buff : List Beat) : List Beat :=
  (List.range ch.numFrames).map (feedBeat p buff)

theorem feedReps_eq (n : Nat) :
    feedReps p ch buff n = (List.replicate n (feedRound p ch buff)).flatten := by
  induction n with
  | zero => rfl
  | succ n ih =>
      rw [feedReps, feedFrames_eq (Nat.le_refl _), ih, Nat.sub_self, ← List.range_eq_range',
        List.replicate_succ, List.flatten_cons, feedRound]

theorem length_of_mem_rounds {n : Nat} :
    ∀ round ∈ List.replicate n (feedRound p ch buff), round.length = ch.numFrames := by
  intro round hround
  rw [List.eq_of_mem_replicate hround, feedRound, List.length_map, List.length_range]

theorem length_feedPerf : (feedPerf p ch buff).length = ch.numRep * ch.numFrames := by
  rw [feedPerf, feedReps_eq, length_flatten_of_width length_of_mem_rounds, List.length_replicate]

variable (p buff) in
/-- Every repetition is the same. -/
theorem slice_feedPerf {r : Nat} (hr : r < ch.numRep) :
    slice (r * ch.numFrames) ch.numFrames (feedPerf p ch buff) = feedRound p ch buff := by
  rw [feedPerf, feedReps_eq, slice_flatten length_of_mem_rounds (by rwa [List.length_replicate]),
    List.getElem_replicate]

variable (p ch buff) in
theorem getElem?_feedPerf {r i : Nat} (hr : r < ch.numRep) (hi : i < ch.numFrames) :
    (feedPerf p ch buff)[r * ch.numFrames + i]? = some (feedBeat p buff i) := by
  have hround := congrArg (·[i]?) (slice_feedPerf p buff hr)
  simp only [getElem?_slice, if_pos hi] at hround
  rw [hround, feedRound, List.getElem?_map, List.getElem?_range hi, Option.map_some]

end Feed

/-! ### The mask of a pass -/

section Mask

variable {p : Platform}

theorem length_of_mem_lanes {pass : Nat} : ∀ lane ∈ passLanes p pass, lane.length = 2 := by
  intro lane hlane
  obtain ⟨k, -, rfl⟩ := List.mem_map.mp hlane
  rfl

theorem length_passLanes (pass : Nat) : (passLanes p pass).length = p.word_size / 2 := by
  rw [passLanes, List.length_map, List.length_range]
  omega

theorem length_passMask (pass : Nat) : (passMask p pass).length = p.word_size := by
  rw [passMask, List.length_append, length_flatten_of_width length_of_mem_lanes, length_passLanes,
    List.length_replicate]
  omega

/-- Lane `k` of the mask. -/
theorem slice_passMask (pass : Nat) {k : Nat} (hk : k < p.word_size / 2) :
    slice (k * 2) 2 (passMask p pass) = laneBytes (pass % 2 ^ 16 * 2 ^ k % 2 ^ 16) := by
  have hlanes := length_passLanes (p := p) pass
  rw [passMask, slice_append_left (by
      rw [length_flatten_of_width length_of_mem_lanes]
      omega), slice_flatten length_of_mem_lanes (by omega)]
  simp only [passLanes, List.getElem_map, List.getElem_range, Nat.shiftLeft_eq]

theorem laneBytes_inj {v w : Nat} (hv : v < 2 ^ 16) (hw : w < 2 ^ 16)
    (h : laneBytes v = laneBytes w) : v = w := by
  simp only [laneBytes, List.cons.injEq, and_true] at h
  have hlow := congrArg UInt8.toNat h.1
  have hhigh := congrArg UInt8.toNat h.2
  simp only [UInt8.toNat_ofNat'] at hlow hhigh
  omega

theorem passMask_inj (hlane : 2 ∣ p.word_size) {a b : Nat} (h : passMask p a = passMask p b) :
    a % 2 ^ 16 = b % 2 ^ 16 := by
  have hpos : 0 < p.word_size / 2 := Nat.div_pos (Nat.le_of_dvd p.word_pos hlane) (by decide)
  have hfirst := congrArg (slice (0 * 2) 2) h
  rw [slice_passMask a hpos, slice_passMask b hpos, pow_zero, Nat.mul_one, Nat.mul_one, Nat.mod_mod,
    Nat.mod_mod] at hfirst
  exact laneBytes_inj (Nat.mod_lt _ (by decide)) (Nat.mod_lt _ (by decide)) hfirst

theorem passMask_zero : passMask p 0 = List.replicate p.word_size 0 := by
  refine List.eq_replicate_iff.mpr ⟨length_passMask 0, ?_⟩
  intro b hb
  rcases List.mem_append.mp hb with hlane | habove
  · obtain ⟨lane, hmem, hb⟩ := List.mem_flatten.mp hlane
    obtain ⟨k, -, rfl⟩ := List.mem_map.mp hmem
    simpa [laneBytes] using hb
  · exact List.eq_of_mem_replicate habove

theorem xorBeat_zero (b : Beat) : xorBeat b (List.replicate b.length 0) = b := by
  induction b with
  | nil => rfl
  | cons x b ih =>
      rw [List.length_cons, List.replicate_succ, xorBeat, List.zipWith_cons_cons, UInt8.xor_zero]
      exact congrArg _ ih

theorem xorBeat_inj {b m m' : Beat} (hm : m.length = b.length) (hm' : m'.length = b.length)
    (h : xorBeat b m = xorBeat b m') : m = m' := by
  refine List.ext_getElem (hm.trans hm'.symm) ?_
  intro i hi hi'
  have hentry := congrArg (·[i]?) h
  simpa [xorBeat, List.getElem?_zipWith, List.getElem?_eq_getElem, hi, hi', hm ▸ hi] using hentry

end Mask

/-! ### From the user's data to the stream -/

structure PerfSent (p : Platform) (a : TestHarnessArgs) (sent : List Beat) : Prop where
  length_eq : sent.length = a.repetition.toNat * (a.size / p.word_size)
  beat_eq : ∀ r < a.repetition.toNat, ∀ i < a.size / p.word_size,
    sent[r * (a.size / p.word_size) + i]?
      = some (xorBeat (a.frame p (i % p.depth)) (passMask p (i / p.depth)))
  lane_eq : ∀ pass, ∀ k < p.word_size / 2,
    slice (k * 2) 2 (passMask p pass) = laneBytes (pass % 2 ^ 16 * 2 ^ k % 2 ^ 16)
  /-- The first pass of every repetition is not masked. -/
  verbatim : ∀ r < a.repetition.toNat, ∀ i < min (a.size / p.word_size) p.depth,
    sent[r * (a.size / p.word_size) + i]? = some (a.frame p i)
  repeats : ∀ r < a.repetition.toNat, ∀ r' < a.repetition.toNat,
    slice (r * (a.size / p.word_size)) (a.size / p.word_size) sent
      = slice (r' * (a.size / p.word_size)) (a.size / p.word_size) sent
  passes_ne : ∀ r < a.repetition.toNat, ∀ r' < a.repetition.toNat,
    ∀ i < a.size / p.word_size, ∀ j < a.size / p.word_size, i % p.depth = j % p.depth →
    i / p.depth % 2 ^ 16 ≠ j / p.depth % 2 ^ 16 →
    sent[r * (a.size / p.word_size) + i]? ≠ sent[r' * (a.size / p.word_size) + j]?

section EndToEnd

variable {p : Platform} {t t' : Transaction} {args : List TestHarnessArgs} {a : TestHarnessArgs}
  {buff : List Beat}

/-- The indices of a channel's region, which 32 bits hold. -/
theorem region_index (haddr : Addressable p) {c : Nat} (hc : c < p.num_channels) {i : Nat}
    (hi : i < p.memDepth) : u32 (i + p.memDepth * c) = p.memDepth * c + i
      ∧ (p.memDepth * c + i + 1) * p.memWidth ≤ p.num_channels * p.word_size * p.depth := by
  have hregion := region_le hc
  have hle : (p.memDepth * c + i + 1) * p.memWidth ≤ c * p.bufBytes + p.bufBytes := by
    rw [← regionWord_mul, ← memDepth_mul_memWidth, ← Nat.add_mul]
    exact Nat.mul_le_mul_right _ (by omega)
  have hpos := Nat.le_mul_of_pos_right (p.memDepth * c + i + 1) p.memWidth_pos
  unfold Addressable at haddr
  exact ⟨by rw [Nat.add_comm]; exact u32_of_lt (by omega), by omega⟩

theorem perfBytes_ge {k : Nat} (hk : k < min (a.size / p.word_size) p.depth) :
    k * p.word_size + p.word_size ≤ perfBytes p a := by
  have hframes := Nat.mul_le_mul_right p.word_size (show k + 1 ≤ a.size / p.word_size by omega)
  have hdepth := Nat.mul_le_mul_right p.word_size (show k + 1 ≤ p.depth by omega)
  have hsize := Nat.div_mul_le_self a.size p.word_size
  rw [Nat.succ_mul] at hframes hdepth
  rw [Nat.mul_comm p.depth, ← Platform.bufBytes] at hdepth
  exact Nat.le_min.mpr ⟨hframes.trans hsize, hdepth⟩

/-- The frames the PL keeps are the user's. -/
theorem regionBeat_eq_frame (haddr : Addressable p) (hlayout : PerfLayout p t' args) (ha : a ∈ args)
    (hato : a.IsTo p.toSetup) {k : Nat} (hk : k < min (a.size / p.word_size) p.depth) :
    regionBeat p (perfChannel p a a.toChn) t'.to_aie_ptr k = a.frame p k := by
  have hword : k / p.memRatio < p.memDepth := by
    rw [Nat.div_lt_iff_lt_mul p.memRatio_pos, p.memDepth_mul]
    omega
  obtain ⟨-, -, hdata⟩ := hlayout.listed_to a ha hato
  unfold regionBeat perfChannel
  rw [(region_index haddr hato.toChn_lt hword).1, range_readWord_eq_slice, regionWord_mul,
    ← slice_slice _ (perfBytes_ge hk), hdata, slice_take _ (perfBytes_ge hk)]
  rfl

theorem length_frame (hlayout : PerfLayout p t' args) (ha : a ∈ args) (hato : a.IsTo p.toSetup)
    {k : Nat} (hk : k < min (a.size / p.word_size) p.depth) :
    (a.frame p k).length = p.word_size :=
  length_slice ((perfBytes_ge hk).trans (hlayout.listed_to a ha hato).2.1)

/-- The word `feed` sends for frame `i`, in terms of the user's data. -/
theorem feedBeat_loadBuff (haddr : Addressable p) (hlayout : PerfLayout p t' args) (ha : a ∈ args)
    (hato : a.IsTo p.toSetup) (hbuff : buff.length = p.depth)
    (hframes : a.size / p.word_size < 2 ^ 32) {i : Nat} (hi : i < a.size / p.word_size) :
    feedBeat p (loadBuff p (perfChannel p a a.toChn) t'.to_aie_ptr buff) i
      = xorBeat (a.frame p (i % p.depth)) (passMask p (i / p.depth)) := by
  have hmod := Nat.mod_lt i p.depth_pos
  have hle := Nat.mod_le i p.depth
  have hk : i % p.depth < min (a.size / p.word_size) p.depth := by omega
  rw [feedBeat, List.getD_eq_getElem?_getD, getElem?_loadBuff rfl hbuff]
  rw [if_pos (by show _ < min (u32 _) _; rwa [u32_of_lt hframes]), Option.getD_some,
    regionBeat_eq_frame haddr hlayout ha hato hk]

theorem perfSent_feedPerf (hlane : 2 ∣ p.word_size) (haddr : Addressable p)
    (hlayout : PerfLayout p t' args) (ha : a ∈ args) (hato : a.IsTo p.toSetup)
    (hbuff : buff.length = p.depth) (hframes : a.size / p.word_size < 2 ^ 32)
    (hrep : a.repetition.toNat < 2 ^ 32) :
    PerfSent p a (feedPerf p (perfChannel p a a.toChn)
      (loadBuff p (perfChannel p a a.toChn) t'.to_aie_ptr buff)) := by
  have hnumFrames : (perfChannel p a a.toChn).numFrames = a.size / p.word_size := u32_of_lt hframes
  have hnumRep : (perfChannel p a a.toChn).numRep = a.repetition.toNat := u32_of_lt hrep
  have hbeat : ∀ r < a.repetition.toNat, ∀ i < a.size / p.word_size,
      (feedPerf p (perfChannel p a a.toChn)
        (loadBuff p (perfChannel p a a.toChn) t'.to_aie_ptr buff))[r * (a.size / p.word_size) + i]?
      = some (xorBeat (a.frame p (i % p.depth)) (passMask p (i / p.depth))) := by
    intro r hr i hi
    have hsent := getElem?_feedPerf p (perfChannel p a a.toChn)
      (loadBuff p (perfChannel p a a.toChn) t'.to_aie_ptr buff) (r := r) (i := i) (by omega)
      (by omega)
    rwa [hnumFrames, feedBeat_loadBuff haddr hlayout ha hato hbuff hframes hi] at hsent
  refine ⟨?_, hbeat, fun pass k hk => slice_passMask pass hk, ?_, ?_, ?_⟩
  · rw [length_feedPerf, hnumFrames, hnumRep]
  · intro r hr i hi
    rw [hbeat r hr i (by omega), Nat.mod_eq_of_lt (by omega), Nat.div_eq_of_lt (by omega),
      passMask_zero, ← length_frame hlayout ha hato hi, xorBeat_zero]
  · intro r hr r' hr'
    rw [← hnumFrames, slice_feedPerf _ _ (by omega), slice_feedPerf _ _ (by omega)]
  · intro r hr r' hr' i hi j hj hslot hpass heq
    rw [hbeat r hr i hi, hbeat r' hr' j hj, hslot, Option.some.injEq] at heq
    have hmod := Nat.mod_lt j p.depth_pos
    have hle := Nat.mod_le j p.depth
    have hlength := length_frame (k := j % p.depth) hlayout ha hato (by omega)
    refine hpass (passMask_inj hlane (xorBeat_inj ?_ ?_ heq))
    · rw [length_passMask, hlength]
    · rw [length_passMask, hlength]

/-- Only the words that were loaded matter. -/
theorem feedPerf_congr {ch : Channel} {mem mem' : List UInt8} {buff' : List Beat}
    (hmode : ch.mode = .PERF_MODE) (hbuff : buff.length = p.depth) (hbuff' : buff'.length = p.depth)
    (hmem : ∀ w ∈ loadReads p ch, p.readWord mem' w = p.readWord mem w) :
    feedPerf p ch (loadBuff p ch mem' buff') = feedPerf p ch (loadBuff p ch mem buff) := by
  have hround : feedRound p ch (loadBuff p ch mem' buff') = feedRound p ch
    (loadBuff p ch mem buff) := by
    refine List.map_congr_left fun i hi => ?_
    have hmod := Nat.mod_lt i p.depth_pos
    have hle := Nat.mod_le i p.depth
    have hk : i % p.depth < min ch.numFrames p.depth := by
      have := List.mem_range.mp hi
      omega
    unfold feedBeat
    rw [List.getD_eq_getElem?_getD, List.getD_eq_getElem?_getD, getElem?_loadBuff hmode hbuff,
      getElem?_loadBuff hmode hbuff', if_pos hk, if_pos hk, regionBeat, regionBeat,
      hmem _ (mem_loadReads hmode hk)]
  rw [feedPerf, feedPerf, feedReps_eq, feedReps_eq, hround]

end EndToEnd

/-- A listed channel plays the user's data, and depends on nothing outside its own region. -/
theorem feedPerf_ok (p : Platform) (t t' : Transaction) (args : List TestHarnessArgs)
    (a : TestHarnessArgs) (buff : List Beat) (hlane : 2 ∣ p.word_size) (haddr : Addressable p)
    (hsetup : t.setup = p.toSetup) (hmode : t.mode = .PERF_MODE) (hdistinct : DistinctChannels args)
    (hinputs : t.handleInputs args = .ok t') (ha : a ∈ args) (hato : a.IsTo p.toSetup)
    (hframes : a.size / p.word_size < 2 ^ 32) (hrep : a.repetition.toNat < 2 ^ 32)
    (hbuff : buff.length = p.depth) :
    let ch := (loadCfg p t'.cfg_ptr).to_aie_ch a.toChn
    PerfSent p a (feedPerf p ch (loadBuff p ch t'.to_aie_ptr buff))
    ∧ (∀ w ∈ loadReads p ch, p.memDepth * a.toChn ≤ w ∧ w < p.memDepth * (a.toChn + 1)
        ∧ (w + 1) * p.memWidth ≤ t'.to_aie_ptr.length)
    ∧ ∀ mem buff', buff'.length = p.depth →
        (∀ w ∈ loadReads p ch, p.readWord mem w = p.readWord t'.to_aie_ptr w) →
        feedPerf p ch (loadBuff p ch mem buff') = feedPerf p ch
          (loadBuff p ch t'.to_aie_ptr buff) := by
  have hlayout := perfLayout_of_handleInputs haddr hsetup hmode hdistinct hinputs
  have hchannel : (loadCfg p t'.cfg_ptr).to_aie_ch a.toChn = perfChannel p a a.toChn :=
    (hlayout.listed_to a ha hato).1
  rw [hchannel]
  refine ⟨perfSent_feedPerf hlane haddr hlayout ha hato hbuff hframes hrep, ?_, ?_⟩
  · intro w hw
    obtain ⟨i, hi, rfl⟩ := loadReads_region hw
    obtain ⟨hindex, hle⟩ := region_index haddr hato.toChn_lt hi
    change p.memDepth * a.toChn ≤ u32 (i + p.memDepth * a.toChn) ∧ _ < _
      ∧ (u32 (i + p.memDepth * a.toChn) + 1) * p.memWidth ≤ _
    rw [hindex, hlayout.to_length]
    refine ⟨Nat.le_add_right _ _, ?_, hle⟩
    change u32 (i + p.memDepth * a.toChn) < _
    rw [hindex, Nat.mul_succ]
    omega
  · intro mem buff' hbuff' hmem
    exact feedPerf_congr rfl hbuff hbuff' hmem

theorem feedPerf_ok_sole : ∃ t', (soleTransaction .PERF_MODE).handleInputs
      [soleArgument 40 (by decide)] = .ok t' ∧
    PerfSent solePlatform (soleArgument 40 (by decide))
      (feedPerf solePlatform ((loadCfg solePlatform t'.cfg_ptr).to_aie_ch 0)
        (loadBuff solePlatform ((loadCfg solePlatform t'.cfg_ptr).to_aie_ch 0) t'.to_aie_ptr
          (List.replicate 16 [0, 0, 0, 0]))) := by
  obtain ⟨t', hinputs, -⟩ := exists_of_test (e := (soleTransaction .PERF_MODE).handleInputs
    [soleArgument 40 (by decide)]) (fun _ => true) (by decide +kernel)
  exact ⟨t', hinputs, (feedPerf_ok solePlatform _ t' _ (soleArgument 40 (by decide)) _ (by decide)
    (by decide) rfl rfl (by decide) hinputs (by simp) (by decide) (by decide) (by decide)
    (by decide)).1⟩

end AieTestHarness
