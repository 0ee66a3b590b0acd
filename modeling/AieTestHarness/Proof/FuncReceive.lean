import AieTestHarness.Proof.FuncTransmit
import AieTestHarness.Proof.Outputs
import AieTestHarness.Proof.ReceiveProgress

/-!
# Functional mode from the AIE, end to end

The stream words the AIE delivers run to the user's buffers. As towards the AIE there is one pass of
the store loop to stay away from: between its two tests a FIFO may be filled with all of the 256
words that are left, and the loop that then takes them out never ends.
-/

namespace AieTestHarness

open Slices Loops MemLoop Transaction

/-- The run the PL makes of a transaction, `beats c` being what the AIE delivers on channel `c`. -/
def receiveOf (p : Platform) (burst_len : Nat) (t : Transaction) (beats : Nat → List Beat)
    (axiDepth : Nat → Nat) (axi_pos : ∀ c, 0 < axiDepth c) : Receive :=
  ⟨p, burst_len, loadCfg p t.cfg_ptr, t.from_aie_ptr, beats, axiDepth, axi_pos⟩

structure ReceiveOk (T : Receive) (t : Transaction) (args : List TestHarnessArgs) (s : RxState) :
    Prop where
  occupancy_le : ∀ c < T.p.num_channels, (s.io.from_aie_strm c).length
    ≤ T.storeMemories.numWords c - moved s.store c
  empty_eq : s.io.empty = 0
  /-- The run is not stuck: some continuation completes it. -/
  completes : ∃ s', T.lts.RunIf Receive.NoWrap s s' ∧ T.Complete s'
  writes_mem : ∀ w ∈ s.io.writes, ∃ a ∈ args, a.IsFrom T.p.toSetup ∧ a.fromChn = w.1 ∧
    ∃ off, t.from_mem_word_offset[w.1]? = some off ∧ off ≤ w.2
      ∧ w.2 < off + a.memWords T.p.toSetup
  outputs : s.store.pc = .done → ∀ perf_ptr : List Nat, perf_ptr.length = T.p.num_channels * 4 →
    ∃ t', { t with from_aie_ptr := s.io.mem, perf_ptr }.handleOutputs = .ok t' ∧
      List.Forall₂ (fun a a' => a.IsFrom T.p.toSetup →
        a'.data.bytes.take a.size = (T.beats a.fromChn).flatten) args t'.args_rec

/-- What the AIE delivers: words of the stream's width, on each listed channel as many as the
argument asks for. -/
structure Delivers (p : Platform) (args : List TestHarnessArgs) (beats : Nat → List Beat) :
    Prop where
  sized : ∀ c, Sized p (beats c)
  length_eq : ∀ a ∈ args, a.IsFrom p.toSetup → (beats a.fromChn).length = a.size / p.word_size

section Correct

variable {p : Platform} {burst_len : Nat} {t t' : Transaction} {args : List TestHarnessArgs}
  {beats : Nat → List Beat} {axiDepth : Nat → Nat} {axi_pos : ∀ c, 0 < axiDepth c} {s : RxState}

/-- A channel is either that of a listed argument or has no frames. -/
theorem fromChannel_cases (hlayout : FuncFromLayout p t' args) {c : Nat} (hc : c < p.num_channels) :
    (∃ a ∈ args, ∃ off, a.IsFrom p.toSetup ∧ a.fromChn = c
        ∧ FromEntry p t'.cfg_ptr t'.from_mem_word_offset .FUNC_MODE a off
        ∧ (off + a.memWords p.toSetup) * p.memWidth ≤ t'.from_aie_ptr.length)
      ∨ (∀ a ∈ args, a.IsFrom p.toSetup → a.fromChn ≠ c)
        ∧ loadChannel p t'.cfg_ptr 4 c = ⟨.FUNC_MODE, 0, 0, 0, 0⟩ := by
  by_cases h : ∀ a ∈ args, a.IsFrom p.toSetup → a.fromChn ≠ c
  · exact Or.inr ⟨h, hlayout.unlisted c hc h⟩
  · simp only [not_forall, not_not] at h
    obtain ⟨a, ha, hafrom, hchn⟩ := h
    obtain ⟨off, hentry, hregion⟩ := hlayout.listed a ha hafrom
    exact Or.inl ⟨a, ha, off, hafrom, hchn, hentry, hregion⟩

/-- What the PL decodes for a listed argument, with nothing cut off. -/
structure FromDecoded (p : Platform) (t : Transaction) (a : TestHarnessArgs) (off : Nat) :
    Prop where
  size_le : a.size ≤ 2 ^ 30
  region_le : (off + a.memWords p.toSetup) * p.memWidth ≤ t.from_aie_ptr.length
  region_lt : (off + a.memWords p.toSetup) * p.memWidth ≤ 2 ^ 30
  offs_eq : t.from_mem_word_offset[a.fromChn]? = some off
  frames_eq : (loadChannel p t.cfg_ptr 4 a.fromChn).numFrames = a.size / p.word_size
  offsets_eq : (loadChannel p t.cfg_ptr 4 a.fromChn).offsets = off
  words_eq : (loadChannel p t.cfg_ptr 4 a.fromChn).words p = a.memWords p.toSetup

theorem fromDecoded (hto : FuncToLayout p t' args) {a : TestHarnessArgs} {off : Nat} (ha : a ∈ args)
    (hbuffer : a.size ≤ a.data.bytes.length)
    (hentry : FromEntry p t'.cfg_ptr t'.from_mem_word_offset .FUNC_MODE a off)
    (hregion : (off + a.memWords p.toSetup) * p.memWidth ≤ t'.from_aie_ptr.length) :
    FromDecoded p t' a off := by
  have hmem := hto.from_mem_le
  have hlt := a.data.length_lt
  have hsize := size_le_memWords (p := p) (a := a) (by omega)
  have hwords : a.memWords p.toSetup * p.memWidth ≤ (off + a.memWords p.toSetup) * p.memWidth :=
    Nat.mul_le_mul_right _ (Nat.le_add_left _ _)
  have hdiv : a.size / p.word_size ≤ a.size := Nat.div_le_self _ _
  have hframes : (loadChannel p t'.cfg_ptr 4 a.fromChn).numFrames = a.size / p.word_size := by
    rw [hentry.channel]
    exact u32_of_lt (by omega)
  exact ⟨by omega, hregion, by omega, hentry.offset_eq, hframes, by rw [hentry.channel],
    words_eq_memWords (hto.checked a ha).1.2 (by omega) hframes⟩

theorem receiveOf_fits (hto : FuncToLayout p t' args) (hfrom : FuncFromLayout p t' args)
    (hB : 1 ≤ burst_len) (hB' : burst_len ≤ 128)
    (hbuffer : ∀ a ∈ args, a.IsFrom p.toSetup → a.size ≤ a.data.bytes.length)
    (hbeats : Delivers p args beats) : (receiveOf p burst_len t' beats axiDepth axi_pos).Fits := by
  have hnone : (⟨.FUNC_MODE, 0, 0, 0, 0⟩ : Channel).words p = 0 :=
    Nat.le_zero.mp (Transmit.words_le p _)
  have hzero : ∀ n : Nat, n ≤ n * p.memWidth := fun n => Nat.le_mul_of_pos_right n p.memWidth_pos
  -- what the PL decodes for a channel, listed or not
  have hcases : ∀ c < p.num_channels,
      (∃ a ∈ args, ∃ off, a.IsFrom p.toSetup ∧ a.fromChn = c ∧ FromDecoded p t' a off)
        ∨ loadChannel p t'.cfg_ptr 4 c = ⟨.FUNC_MODE, 0, 0, 0, 0⟩ := by
    intro c hc
    rcases fromChannel_cases hfrom hc with ⟨a, ha, off, hafrom, hchn, hentry, hregion⟩ | ⟨-, h⟩
    · exact Or.inl ⟨a, ha, off, hafrom, hchn,
        fromDecoded hto ha (hbuffer a ha hafrom) hentry hregion⟩
    · exact Or.inr h
  refine ⟨?_, hB, hB', ?_, ?_, fun c _ => hbeats.sized c, ?_, ?_, ?_⟩
  · exact hto.cfg_mode
  · intro c hc
    change (loadChannel p t'.cfg_ptr 4 c).numFrames < _
    rcases hcases c hc with ⟨a, ha, off, hafrom, rfl, h⟩ | h
    · have := h.size_le
      have : a.size / p.word_size ≤ a.size := Nat.div_le_self _ _
      rw [h.frames_eq]
      omega
    · simp [h]
  · intro c hc
    change (loadChannel p t'.cfg_ptr 4 c).offsets < _
    rcases hcases c hc with ⟨a, ha, off, hafrom, rfl, h⟩ | h
    · have := h.region_lt
      have := hzero (off + a.memWords p.toSetup)
      rw [h.offsets_eq]
      omega
    · simp [h]
  · intro c hc
    change (loadChannel p t'.cfg_ptr 4 c).numFrames ≤ (beats c).length
    rcases hcases c hc with ⟨a, ha, off, hafrom, rfl, h⟩ | h
    · rw [h.frames_eq, hbeats.length_eq a ha hafrom]
    · simp [h]
  · intro c hc k hk
    change k < (loadChannel p t'.cfg_ptr 4 c).words p at hk
    change ((loadChannel p t'.cfg_ptr 4 c).offsets + k + 1) * p.memWidth ≤ t'.from_aie_ptr.length
    rcases hcases c hc with ⟨a, ha, off, hafrom, rfl, h⟩ | h
    · rw [h.words_eq] at hk
      rw [h.offsets_eq]
      exact (Nat.mul_le_mul_right _ (by omega)).trans h.region_le
    · rw [h, hnone] at hk
      omega
  · intro c hc c' hc' hne k hk k' hk'
    change k < (loadChannel p t'.cfg_ptr 4 c).words p at hk
    change k' < (loadChannel p t'.cfg_ptr 4 c').words p at hk'
    change (loadChannel p t'.cfg_ptr 4 c).offsets + k
      ≠ (loadChannel p t'.cfg_ptr 4 c').offsets + k'
    rcases hcases c hc with ⟨a, ha, off, hafrom, rfl, h⟩ | h
    · rcases hcases c' hc' with ⟨a', ha', off', hafrom', rfl, h'⟩ | h'
      · have hidx : a.idx ≠ a'.idx := fun heq => hne (by
          simp only [TestHarnessArgs.fromChn, heq])
        have := hfrom.disjoint a ha hafrom a' ha' hafrom' hidx
        rw [h.words_eq] at hk
        rw [h'.words_eq] at hk'
        omega
      · rw [h', hnone] at hk'
        omega
    · rw [h, hnone] at hk
      omega

/-- A stored word of a listed channel packs the delivered stream words. -/
theorem rxWord_of_listed {ch : Channel} {bs : List Beat} (hlen : bs.length = ch.numFrames)
    (k : Nat) :
    rxWord p ch bs k = packed p (slice (k * p.memRatio) p.memRatio bs) := by
  unfold rxWord
  congr 1
  apply List.ext_getElem?
  intro i
  rw [getElem?_slice, getElem?_slice]
  by_cases hi : i < p.memRatio
  · rw [if_pos hi]
    by_cases hin : i < ch.numFrames - k * p.memRatio
    · rw [if_pos (by omega)]
    · rw [if_neg (by omega), List.getElem?_eq_none (by omega)]
  · rw [if_neg hi, if_neg (by omega)]

theorem words_mul_lt {ch : Channel} {k : Nat} (hk : k * p.memRatio < ch.numFrames) :
    k < ch.words p := by
  have hR := p.memRatio_pos
  unfold Channel.words
  rw [Nat.lt_div_iff_mul_lt hR]
  omega

/-- The memory of a listed channel once every word is stored. -/
theorem stored_eq (hI : (receiveOf p burst_len t' beats axiDepth axi_pos).Inv s)
    (hfits : (receiveOf p burst_len t' beats axiDepth axi_pos).Fits) (hdone : s.store.pc = .done)
    {a : TestHarnessArgs} {off : Nat} (hafrom : a.IsFrom p.toSetup) (h : FromDecoded p t' a off)
    (hsized : Sized p (beats a.fromChn))
    (hlen : (beats a.fromChn).length = a.size / p.word_size) (hchecked : a.size % p.word_size = 0) :
    slice (off * p.memWidth) a.size s.io.mem = (beats a.fromChn).flatten := by
  have hsize : a.size = (beats a.fromChn).length * p.word_size := by
    rw [hlen]
    exact (Nat.div_mul_cancel (Nat.dvd_of_mod_eq_zero hchecked)).symm
  have hc := hafrom.fromChn_lt
  have hmoved : moved s.store a.fromChn = (loadChannel p t'.cfg_ptr 4 a.fromChn).words p := by
    rw [moved_of_done hfits.mode_eq hI.store hdone hc, hfits.numWords_eq hc]
    rfl
  rw [hsize]
  refine slice_of_words _ _ hsized ?_
  intro k hk
  have hframes : (beats a.fromChn).length = (loadChannel p t'.cfg_ptr 4 a.fromChn).numFrames := by
    rw [h.frames_eq, hlen]
  rw [← rxWord_of_listed hframes, ← h.offsets_eq]
  refine hI.mem_eq a.fromChn hc k ?_
  rw [hmoved]
  exact words_mul_lt (hframes ▸ hk)

theorem receiveOk_of_inv (hto : FuncToLayout p t' args) (hfrom : FuncFromLayout p t' args)
    (hbuffer : ∀ a ∈ args, a.IsFrom p.toSetup → a.size ≤ a.data.bytes.length)
    (hbeats : Delivers p args beats)
    (hfits : (receiveOf p burst_len t' beats axiDepth axi_pos).Fits)
    (hI : (receiveOf p burst_len t' beats axiDepth axi_pos).Inv s) :
    ReceiveOk (receiveOf p burst_len t' beats axiDepth axi_pos) t' args s := by
  have hdecoded : ∀ a ∈ args, a.IsFrom p.toSetup → ∃ off, FromDecoded p t' a off := by
    intro a ha hafrom
    obtain ⟨off, hentry, hregion⟩ := hfrom.listed a ha hafrom
    exact ⟨off, fromDecoded hto ha (hbuffer a ha hafrom) hentry hregion⟩
  refine ⟨?_, hI.empty_eq, Receive.exists_complete hfits hI, ?_, ?_⟩
  · intro c hc
    have := (hI.flow c hc).occupancy_le
    rw [hfits.numWords_eq hc]
    omega
  · intro w hw
    obtain ⟨hc, hge, hlt⟩ := hI.writes_mem w hw
    change (loadChannel p t'.cfg_ptr 4 w.1).offsets ≤ w.2 at hge
    change w.2 < (loadChannel p t'.cfg_ptr 4 w.1).offsets
      + (loadChannel p t'.cfg_ptr 4 w.1).words p at hlt
    rcases fromChannel_cases hfrom hc with ⟨a, ha, off, hafrom, hchn, -, -⟩ | ⟨-, hnone⟩
    · obtain ⟨off, h⟩ := hdecoded a ha hafrom
      rw [← hchn, h.offsets_eq] at hge hlt
      rw [h.words_eq] at hlt
      exact ⟨a, ha, hafrom, hchn, off, hchn ▸ h.offs_eq, hge, hlt⟩
    · have hzero : (⟨.FUNC_MODE, 0, 0, 0, 0⟩ : Channel).words p = 0 :=
        Nat.le_zero.mp (Transmit.words_le p _)
      rw [hnone] at hge hlt
      rw [hzero] at hlt
      omega
  · intro hdone perf_ptr hperf
    have hlen : s.io.mem.length = t'.from_aie_ptr.length := hI.mem_length
    obtain ⟨t'', hout, -, -, hall⟩ := handleOutputs_ok (p := p)
      (t := { t' with from_aie_ptr := s.io.mem, perf_ptr }) hto.setup_eq hperf (by
        intro a ha hafrom
        have hmem : a ∈ args := hto.args_eq ▸ ha
        rw [show _ = t'.setup from rfl, hto.setup_eq] at hafrom
        obtain ⟨off, h⟩ := hdecoded a hmem hafrom
        have hsize := hbuffer a hmem hafrom
        have hwords := size_le_memWords (p := p) (a := a)
          (by have := a.data.length_lt; omega)
        have hregion := h.region_le
        have hlt := h.region_lt
        rw [Nat.add_mul] at hregion hlt
        refine ⟨off, h.offs_eq, ?_, ?_, ?_⟩
        · show off * t'.setup.memWidth < _
          rw [hto.setup_eq]
          omega
        · show off * t'.setup.memWidth + outputBytes t'.setup t'.mode a ≤ s.io.mem.length
          rw [hto.setup_eq, hto.mode_eq, hlen]
          show _ + a.size ≤ _
          omega
        · show outputBytes t'.setup t'.mode a ≤ _
          rw [hto.mode_eq]
          exact hsize)
    refine ⟨t'', hout, ?_⟩
    rw [show ({ t' with from_aie_ptr := s.io.mem, perf_ptr } : Transaction).args_rec = args from
      hto.args_eq] at hall
    refine forall₂_imp_of_mem hall ?_
    intro a ha a' houtput hafrom
    obtain ⟨off, h⟩ := hdecoded a ha hafrom
    obtain ⟨off', hoff', hbytes⟩ := houtput.bytes_eq
      (show a.IsFrom t'.setup by rw [hto.setup_eq]; exact hafrom)
    obtain rfl : off = off' := Option.some.inj (h.offs_eq.symm.trans hoff')
    have hstored := stored_eq hI hfits hdone hafrom h (hbeats.sized _)
      (hbeats.length_eq a ha hafrom) (hto.checked a ha).1.2
    have hbytes' : a'.data.bytes = overwrite a.data.bytes 0 (beats a.fromChn).flatten := by
      rw [hbytes, ← hstored]
      simp only [hto.setup_eq, hto.mode_eq, outputBytes]
    have hlen : (beats a.fromChn).flatten.length = a.size := by
      rw [← hstored]
      refine length_slice ?_
      have hregion := h.region_le
      have hsize := h.size_le
      have hwords := size_le_memWords (p := p) (a := a) (by omega)
      rw [Nat.add_mul] at hregion
      rw [show s.io.mem.length = t'.from_aie_ptr.length from hI.mem_length]
      omega
    rw [hbytes']
    exact take_overwrite_zero hlen (hbuffer a ha hafrom)

end Correct

theorem Receive.noWrap_of_countable {l : RxLabel} {s : RxState}
    (h : MemLoop.countable s.store = true) : Receive.NoWrap l s := by
  cases l with
  | store => trivial
  | get c =>
      intro numData hpc hle
      exact absurd (MemLoop.lt_of_countable h hpc) (Nat.not_lt.mpr hle)
  | aie c => trivial

/-- In every run in which no FIFO is filled up to 256 words left between the two tests of a pass, no
state is stuck and the user's buffers end up with what was delivered. -/
theorem receive_ok (p : Platform) (burst_len : Nat) (t t' : Transaction)
    (args : List TestHarnessArgs) (beats : Nat → List Beat) (axiDepth : Nat → Nat)
    (axi_pos : ∀ c, 0 < axiDepth c) (s : RxState) (hB : 1 ≤ burst_len) (hB' : burst_len ≤ 128)
    (hsetup : t.setup = p.toSetup) (hmode : t.mode = .FUNC_MODE) (hdistinct : DistinctChannels args)
    (hbuffer : ∀ a ∈ args, a.IsFrom p.toSetup → a.size ≤ a.data.bytes.length)
    (hinputs : t.handleInputs args = .ok t') (hlimit : t'.getMemoryUsage ≤ 2 ^ 30)
    (hbeats : Delivers p args beats)
    (hrun : (receiveOf p burst_len t' beats axiDepth axi_pos).lts.RunIf Receive.NoWrap
      (receiveOf p burst_len t' beats axiDepth axi_pos).init s) :
    ReceiveOk (receiveOf p burst_len t' beats axiDepth axi_pos) t' args s := by
  have hto := funcToLayout_of_handleInputs hsetup hmode hdistinct hinputs hlimit
  have hfrom := funcFromLayout_of_handleInputs hsetup hmode hdistinct hbuffer hinputs hlimit
  have hfits : (receiveOf p burst_len t' beats axiDepth axi_pos).Fits :=
    receiveOf_fits hto hfrom hB hB' hbuffer hbeats
  exact receiveOk_of_inv hto hfrom hbuffer hbeats hfits
    (Receive.inv_of_run hfits (Receive.inv_init _) hrun)

def soleReceive : List RxLabel :=
  .get 0 :: (List.replicate 3 [.get 0, .aie 0, .get 0, .get 0, .get 0]).flatten ++
    .get 0 :: List.replicate 10 .store

theorem receive_ok_sole : ∃ t' s, (soleTransaction .FUNC_MODE).handleInputs
      [soleOutput 3 (by decide)] = .ok t' ∧
    (s.store.pc = .done ∧ s.get 0 = .done ∧ s.io.writes.length = 3) ∧
    ReceiveOk (receiveOf solePlatform 128 t' (fun _ => List.replicate 3 [1, 2, 3, 4]) (fun _ => 1)
        fun _ => Nat.one_pos) t' [soleOutput 3 (by decide)] s := by
  obtain ⟨t', hinputs, htest⟩ := exists_of_test (e := (soleTransaction .FUNC_MODE).handleInputs
    [soleOutput 3 (by decide)]) (fun t' : Transaction => decide (t'.getMemoryUsage ≤ 2 ^ 30 ∧
      ∃ s ∈ ((receiveOf solePlatform 128 t' (fun _ => List.replicate 3 [1, 2, 3, 4]) (fun _ => 1)
          fun _ => Nat.one_pos).lts.guarded fun _ s => MemLoop.countable s.store).exec soleReceive
        (receiveOf solePlatform 128 t' (fun _ => List.replicate 3 [1, 2, 3, 4]) (fun _ => 1)
          fun _ => Nat.one_pos).init,
        s.store.pc = .done ∧ s.get 0 = .done ∧ s.io.writes.length = 3)) (by decide +kernel)
  obtain ⟨hlimit, hexec⟩ := of_decide_eq_true htest
  obtain ⟨s, hrun, hdone⟩ := Lts.exists_runIf _ (fun l s => Receive.noWrap_of_countable)
    soleReceive hexec
  exact ⟨t', s, hinputs, hdone, receive_ok solePlatform 128 _ t' _ _ _ _ _ (by decide) (by decide)
    rfl rfl (by decide) (by decide +kernel) hinputs hlimit
    ⟨fun _ => sized_replicate rfl, by decide +kernel⟩ hrun⟩

/-! ### The run that wraps -/

namespace Receive

variable {T : Receive} {s : RxState}

/-- Words `store_memories` moves come out of the FIFO as long as there are any. -/
theorem length_of_moves {c k : Nat} {x y : RxIO} (h : T.storeMemories.Moves c k x y) :
    (x.from_aie_strm c).length + y.empty = (y.from_aie_strm c).length + x.empty + k := by
  induction h with
  | refl x => omega
  | @head k x y i hmoves ih =>
      change ((T.moveWord x c i).from_aie_strm c).length + _
        = _ + (T.moveWord x c i).empty + k at ih
      unfold moveWord at ih
      split at ih <;> rename_i hfifo
      · simp only [hfifo, List.length_nil] at ih ⊢
        omega
      · simp only [hfifo, Function.update_self, List.length_cons] at ih ⊢
        omega

/-- With 256 words for one channel and bursts of 128, `store_memories` finds no burst in the empty
FIFO, and, when `get` fills the FIFO before the second test, enters the last loop with 256 words:
its counter goes round and the FIFO is read empty. -/
theorem reads_empty_of_256 (hs : T.Fits) (hN : T.p.num_channels = 1) (hB : T.burst_len = 128)
    (hwords : (T.chs.from_aie_ch 0).words T.p = 256) :
    ∃ s, T.lts.Run T.init s ∧ 0 < s.io.empty := by
  have hcap : T.capacity = 256 := by rw [capacity, hB]
  have hc : 0 < T.p.num_channels := by omega
  have hdata : T.storeMemories.numData (.sole 0) (Scheduler.sole 0).ch_id = 256 := by
    show u32 (T.storeMemories.numWords 0 + 2 ^ 32 - 0) = 256
    rw [hs.numWords_eq hc, hwords]
    rfl
  have hstart : T.init.store = ⟨.sole 0, .start⟩ := start_of_sole hN
  -- no burst in the empty FIFO
  have hstart' : T.storeMemories.step ⟨.sole 0, .start⟩ T.init.io
      = some (⟨.sole 0, .head⟩, T.init.io) := by
    show some _ = _
    rw [if_pos (show (T.storeMemories.chs 0).mode = .FUNC_MODE from hs.mode_eq)]
  have hnot :
    ¬ (T.storeMemories.burst_len ≤ 256 ∧ T.storeMemories.burstReady T.init.io 0 = true) := by
    rintro ⟨-, h⟩
    have : T.burst_len ≤ 0 := of_decide_eq_true h
    omega
  have hrun₁ := run_store (s := T.init) ((run_step hstart').trans
    ((run_step (step_head_serve (x := T.init.io) Nat.one_ne_zero hdata (by decide))).trans
      (run_step (step_burstTest_neg hnot))))
  rw [← hstart] at hrun₁
  -- `get` fills it
  obtain ⟨s₂, hrun₂, hstop⟩ := run_get (C := fun _ _ => True) hs hc _
    { T.init with store := ⟨(Scheduler.sole 0).serve 0, .resTest 0 256⟩ }
    ((inv_of_run hs (inv_init T) hrun₁).flow 0 hc) (fun _ _ => ⟨trivial, trivial⟩) (Nat.le_refl _)
  have hflow₂ := hrun₂.flow ((inv_of_run hs (inv_init T) hrun₁).flow 0 hc)
  have hmoved : moved s₂.store 0 = 0 := by rw [hrun₂.store_eq]; rfl
  rw [FlowAt, hmoved] at hflow₂
  have hfull : (s₂.io.from_aie_strm 0).length = 256 := by
    have hle := hflow₂.occupancy_le
    rw [hwords] at hle
    rcases hstop with hdone | hge
    · have hputs := hflow₂.fifo_length
      rw [hdone, GetPc.puts, hwords] at hputs
      omega
    · omega
  -- the test of the rest now passes, with 256 words
  have hrest : T.storeMemories.resReady s₂.io 0 256 = true := decide_eq_true hfull
  obtain ⟨j, x₃, hrun₃, hmoves₃⟩ :=
    run_wrapped (L := T.storeMemories) ((Scheduler.sole 0).serve 0) 0
    256 (by omega) 257 0 (by omega) s₂.io
  have hlen₃ := length_of_moves hmoves₃
  have hlast := run_store (s := s₂) ((run_step (step_resTest_pos hrest)).trans hrun₃)
  have hpc₂ : s₂.store = ⟨(Scheduler.sole 0).serve 0, .resTest 0 256⟩ := hrun₂.store_eq
  rw [← hpc₂] at hlast
  refine ⟨_, hrun₁.toRun.trans (hrun₂.run.trans hlast.toRun), ?_⟩
  show 0 < x₃.empty
  omega

end Receive

/-- Not every run is correct: 256 words from one channel, bursts of 128 words. -/
theorem not_receive_ok : ¬ ∀ (p : Platform) (burst_len : Nat) (t t' : Transaction)
    (args : List TestHarnessArgs) (beats : Nat → List Beat) (axiDepth : Nat → Nat)
    (axi_pos : ∀ c, 0 < axiDepth c) (s : RxState), 1 ≤ burst_len → burst_len ≤ 128 →
    p.memRatio ∣ burst_len → t.setup = p.toSetup → t.mode = .FUNC_MODE → DistinctChannels args →
    (∀ a ∈ args, a.IsFrom p.toSetup → a.size ≤ a.data.bytes.length) →
    t.handleInputs args = .ok t' → t'.getMemoryUsage ≤ 2 ^ 30 → Delivers p args beats →
    (receiveOf p burst_len t' beats axiDepth axi_pos).lts.Run
      (receiveOf p burst_len t' beats axiDepth axi_pos).init s →
    ReceiveOk (receiveOf p burst_len t' beats axiDepth axi_pos) t' args s := by
  intro hall
  obtain ⟨t', hinputs, htest⟩ := exists_of_test (e := (soleTransaction .FUNC_MODE).handleInputs
    [soleOutput 256 (by decide)])
    (fun t' : Transaction => decide (t'.getMemoryUsage ≤ 2 ^ 30
      ∧ (loadChannel solePlatform t'.cfg_ptr 4 0).words solePlatform = 256)) (by decide +kernel)
  obtain ⟨hlimit, hwords⟩ := of_decide_eq_true htest
  have hbuffer : ∀ a ∈ [soleOutput 256 (by decide)], a.IsFrom solePlatform.toSetup →
      a.size ≤ a.data.bytes.length := by decide +kernel
  have hbeats : Delivers solePlatform [soleOutput 256 (by decide)]
      fun _ => List.replicate 256 [1, 2, 3, 4] :=
    ⟨fun _ => sized_replicate rfl, by decide +kernel⟩
  have hdistinct : DistinctChannels [soleOutput 256 (by decide)] := by decide
  have hto := funcToLayout_of_handleInputs (p := solePlatform) rfl rfl hdistinct hinputs hlimit
  have hfrom :=
    funcFromLayout_of_handleInputs (p := solePlatform) rfl rfl hdistinct hbuffer hinputs hlimit
  have hfits : (receiveOf solePlatform 128 t' _ (fun _ => 1) fun _ => Nat.one_pos).Fits :=
    receiveOf_fits hto hfrom (by decide) (le_refl _) hbuffer hbeats
  obtain ⟨s, hrun, hempty⟩ := Receive.reads_empty_of_256 hfits rfl rfl hwords
  have hok := hall solePlatform 128 _ t' _ _ _ (fun _ => Nat.one_pos) s (by decide) (by decide)
    (by decide) rfl rfl hdistinct hbuffer hinputs hlimit hbeats hrun
  have := hok.empty_eq
  omega

end AieTestHarness
