import AieTestHarness.Proof.FuncLayout
import AieTestHarness.Proof.Transmit
import AieTestHarness.Proof.Words

/-!
# Functional mode towards the AIE, end to end

An accepted argument list runs from the user's bytes to the AXI streams. Away from the one pass that
enters the last loop of `load_memories` with 256 words left, each channel sends its argument's data
in order and nothing else. That pass exists: `load_memories` reads the size of a FIFO twice, and 256
words may leave the FIFO between the test of a burst and the test of the rest.
-/

namespace AieTestHarness

open Slices Loops MemLoop

def transmitOf (p : Platform) (burst_len : Nat) (t : Transaction) (axiDepth : Nat → Nat) :
    Transmit :=
  ⟨p, burst_len, loadCfg p t.cfg_ptr, t.to_aie_ptr, axiDepth⟩

/-- What the streams, the FIFOs and the memory see of a correct run at any moment. -/
structure TransmitOk (T : Transmit) (args : List TestHarnessArgs) (s : TxState) : Prop where
  sent_prefix : ∀ a ∈ args, a.IsTo T.p.toSetup → s.sent a.toChn <+: a.beats T.p
  sent_eq : ∀ a ∈ args, a.IsTo T.p.toSetup → s.load.pc = .done → s.feed a.toChn = .done →
    s.sent a.toChn = a.beats T.p
  unlisted : ∀ c < T.p.num_channels, (∀ a ∈ args, a.IsTo T.p.toSetup → a.toChn ≠ c) →
    s.sent c = []
  lost_eq : s.io.lost = 0
  reads_le : ∀ k ∈ s.io.reads, (k + 1) * T.p.memWidth ≤ T.mem.length

/-! ### From memory words to the user's bytes -/

theorem beats_of_data_eq {p : Platform} {mem : List UInt8} {a : TestHarnessArgs} {off : Nat}
    (hdata : slice (off * p.memWidth) a.size mem = a.data.bytes.take a.size) :
    (List.range (a.size / p.word_size)).map (beat p fun k => p.readWord mem (off + k))
      = a.beats p := by
  unfold TestHarnessArgs.beats
  refine List.map_congr_left ?_
  intro i hi
  have hfit : i * p.word_size + p.word_size ≤ a.size := by
    have := Nat.mul_le_mul_right p.word_size (List.mem_range.mp hi)
    rw [Nat.succ_mul] at this
    exact this.trans (Nat.div_mul_le_self _ _)
  rw [beat, range_readWord_eq_slice, ← slice_slice mem hfit, hdata, slice_take _ hfit]
  rfl

/-- The words the PL transfers for an argument are those the host reserved. -/
theorem words_eq_memWords {p : Platform} {a : TestHarnessArgs} {ch : Channel}
    (hchecked : a.size % p.word_size = 0) (hsize : a.size < 2 ^ 62)
    (hframes : ch.numFrames = a.size / p.word_size) : ch.words p = a.memWords p.toSetup := by
  have hW := p.word_pos
  have hR := p.memRatio_pos
  have hsz : a.size = ch.numFrames * p.word_size := by
    rw [hframes]
    exact (Nat.div_mul_cancel (Nat.dvd_of_mod_eq_zero hchecked)).symm
  rw [memWords_eq hsize, Channel.words, ← p.memRatio_mul, hsz]
  -- dividing by the stream width first leaves the count in frames
  have hfirst : (ch.numFrames * p.word_size + p.memRatio * p.word_size - 1) / p.word_size
      = ch.numFrames + p.memRatio - 1 := by
    rw [Nat.div_eq_iff hW, ← Nat.add_mul, Nat.sub_mul, Nat.one_mul]
    have := Nat.le_mul_of_pos_left p.word_size (show 0 < ch.numFrames + p.memRatio by omega)
    omega
  rw [Nat.mul_comm p.memRatio p.word_size, ← Nat.div_div_eq_div_mul, Nat.mul_comm p.word_size,
    hfirst]

/-! ### The correct runs -/

section Correct

variable {p : Platform} {burst_len : Nat} {t t' : Transaction} {args : List TestHarnessArgs}
  {axiDepth : Nat → Nat} {s : TxState}

theorem toChannel_cases (hlayout : FuncToLayout p t' args) {c : Nat} (hc : c < p.num_channels) :
    (∃ a ∈ args, ∃ off, a.IsTo p.toSetup ∧ a.toChn = c
        ∧ ToEntry p t'.cfg_ptr t'.to_aie_ptr .FUNC_MODE a off)
      ∨ (∀ a ∈ args, a.IsTo p.toSetup → a.toChn ≠ c)
        ∧ loadChannel p t'.cfg_ptr 0 c = ⟨.FUNC_MODE, 0, 0, 0, 0⟩ := by
  by_cases h : ∀ a ∈ args, a.IsTo p.toSetup → a.toChn ≠ c
  · exact Or.inr ⟨h, hlayout.unlisted c hc h⟩
  · simp only [not_forall, not_not] at h
    obtain ⟨a, ha, hato, hchn⟩ := h
    obtain ⟨off, hentry⟩ := hlayout.listed a ha hato
    exact Or.inl ⟨a, ha, off, hato, hchn, hentry⟩

/-- The frames and the offset the PL decodes for a listed argument, with nothing cut off. -/
theorem toEntry_decoded (hlayout : FuncToLayout p t' args) {a : TestHarnessArgs} {off : Nat}
    (hentry : ToEntry p t'.cfg_ptr t'.to_aie_ptr .FUNC_MODE a off) :
    a.size ≤ 2 ^ 30 ∧ off ≤ 2 ^ 30 ∧ a.memWords p.toSetup ≤ 2 ^ 30
      ∧ (loadChannel p t'.cfg_ptr 0 a.toChn).numFrames = a.size / p.word_size
      ∧ (loadChannel p t'.cfg_ptr 0 a.toChn).offsets = off := by
  have hmem := hlayout.mem_le
  have hregion := hentry.region_le
  have hdata := hentry.data_le
  have hwords := Nat.le_mul_of_pos_right (off + a.memWords p.toSetup) p.memWidth_pos
  have hdiv : a.size / p.word_size ≤ a.size := Nat.div_le_self _ _
  refine ⟨by omega, by omega, by omega, ?_, ?_⟩
  · rw [hentry.channel]
    exact u32_of_lt (by omega)
  · rw [hentry.channel]
    exact u32_of_lt (by omega)

theorem transmitOf_small (burst_len : Nat) (axiDepth : Nat → Nat)
    (hlayout : FuncToLayout p t' args) :
    (transmitOf p burst_len t' axiDepth).Small := by
  have hdecoded : ∀ c < p.num_channels, (loadChannel p t'.cfg_ptr 0 c).numFrames < 2 ^ 31
      ∧ (loadChannel p t'.cfg_ptr 0 c).offsets < 2 ^ 31 := by
    intro c hc
    rcases toChannel_cases hlayout hc with ⟨a, ha, off, hato, rfl, hentry⟩ | ⟨-, hnone⟩
    · obtain ⟨hsize, hoff, -, hframes, hoffs⟩ := toEntry_decoded hlayout hentry
      have hdiv : a.size / p.word_size ≤ a.size := Nat.div_le_self _ _
      omega
    · simp [hnone]
  exact ⟨fun c hc => (hdecoded c hc).1, fun c hc => (hdecoded c hc).2⟩

theorem transmitOk_of_inv (hlayout : FuncToLayout p t' args)
    (hI : (transmitOf p burst_len t' axiDepth).Inv s) :
    TransmitOk (transmitOf p burst_len t' axiDepth) args s := by
  have hsmall := transmitOf_small burst_len axiDepth hlayout
  have hbeats : ∀ a ∈ args, a.IsTo p.toSetup →
      (List.range (loadChannel p t'.cfg_ptr 0 a.toChn).numFrames).map
        (beat p ((transmitOf p burst_len t' axiDepth).word a.toChn)) = a.beats p := by
    intro a ha hato
    obtain ⟨off, hentry⟩ := hlayout.listed a ha hato
    obtain ⟨-, -, -, hframes, hoffs⟩ := toEntry_decoded hlayout hentry
    rw [hframes, ← beats_of_data_eq hentry.data_eq]
    show List.map (beat p fun k => p.readWord t'.to_aie_ptr
      ((loadChannel p t'.cfg_ptr 0 a.toChn).offsets + k)) _ = _
    rw [hoffs]
  refine ⟨?_, ?_, ?_, hI.lost_eq, ?_⟩
  · intro a ha hato
    change _ <+: a.beats p
    rw [← hbeats a ha hato]
    exact (hI.flow _ hato.toChn_lt).sent_init
  · intro a ha hato _ hdone
    change _ = a.beats p
    rw [← hbeats a ha hato, (hI.flow _ hato.toChn_lt).sent_eq, hdone]
    rfl
  · intro c hc hnone
    have hprefix := (hI.flow c hc).sent_init
    have hframes : ((transmitOf p burst_len t' axiDepth).chs.to_aie_ch c).numFrames = 0 :=
      congrArg Channel.numFrames (hlayout.unlisted c hc hnone)
    rw [hframes] at hprefix
    exact List.prefix_nil.mp hprefix
  · intro k hk
    obtain ⟨c, hc, hge, hlt⟩ := hI.reads_mem k hk
    rw [hsmall.numWords_eq hc] at hlt
    change (loadChannel p t'.cfg_ptr 0 c).offsets ≤ k at hge
    change k < (loadChannel p t'.cfg_ptr 0 c).offsets
      + (loadChannel p t'.cfg_ptr 0 c).words p at hlt
    rcases toChannel_cases hlayout hc with ⟨a, ha, off, hato, rfl, hentry⟩ | ⟨-, hnone⟩
    · obtain ⟨hsize, -, -, hframes, hoffs⟩ := toEntry_decoded hlayout hentry
      have hwords := words_eq_memWords (hlayout.checked a ha).1.2 (by omega) hframes
      rw [hoffs, hwords] at hlt
      exact (Nat.mul_le_mul_right _ hlt).trans hentry.region_le
    · have hzero : (⟨.FUNC_MODE, 0, 0, 0, 0⟩ : Channel).words p = 0 :=
        Nat.le_zero.mp (Transmit.words_le p _)
      rw [hnone] at hge hlt
      rw [hzero] at hlt
      omega

end Correct

theorem Transmit.noWrap_of_countable {T : Transmit} {l : TxLabel} {s : TxState}
    (h : MemLoop.countable s.load = true) : T.NoWrap l s := by
  cases l with
  | load =>
      rintro ⟨ch_id, numData, hpc, -, hle⟩
      exact absurd (MemLoop.lt_of_countable h hpc) (Nat.not_lt.mpr hle)
  | feed c => trivial
  | aie c => trivial

/-- In every run that does not enter the last loop with 256 words or more, the streams carry the
user's data. -/
theorem transmit_ok (p : Platform) (burst_len : Nat) (t t' : Transaction)
    (args : List TestHarnessArgs) (axiDepth : Nat → Nat) (s : TxState)
    (hsetup : t.setup = p.toSetup) (hmode : t.mode = .FUNC_MODE) (hdistinct : DistinctChannels args)
    (hinputs : t.handleInputs args = .ok t') (hlimit : t'.getMemoryUsage ≤ 2 ^ 30)
    (hrun : (transmitOf p burst_len t' axiDepth).lts.RunIf
      (transmitOf p burst_len t' axiDepth).NoWrap (transmitOf p burst_len t' axiDepth).init s) :
    TransmitOk (transmitOf p burst_len t' axiDepth) args s := by
  have hlayout := funcToLayout_of_handleInputs hsetup hmode hdistinct hinputs hlimit
  exact transmitOk_of_inv hlayout
    (Transmit.inv_of_run (transmitOf_small burst_len axiDepth hlayout) hrun)

/-- The processes one after the other: all words are loaded, then each is sent and taken. -/
def soleTransmit : List TxLabel :=
  List.replicate 10 .load ++ .feed 0 :: .feed 0 ::
    (List.replicate 3 [.feed 0, .feed 0, .aie 0, .feed 0]).flatten

theorem transmit_ok_sole : ∃ t' s, (soleTransaction .FUNC_MODE).handleInputs
      [soleArgument 3 (by decide)] = .ok t' ∧
    (s.load.pc = .done ∧ s.feed 0 = .done ∧ (s.sent 0).length = 3) ∧
    TransmitOk (transmitOf solePlatform 128 t' fun _ => 1) [soleArgument 3 (by decide)] s := by
  obtain ⟨t', hinputs, htest⟩ := exists_of_test (e := (soleTransaction .FUNC_MODE).handleInputs
    [soleArgument 3 (by decide)]) (fun t' : Transaction => decide (t'.getMemoryUsage ≤ 2 ^ 30 ∧
      ∃ s ∈ ((transmitOf solePlatform 128 t' fun _ => 1).lts.guarded
          fun _ s => MemLoop.countable s.load).exec soleTransmit
        (transmitOf solePlatform 128 t' fun _ => 1).init,
        s.load.pc = .done ∧ s.feed 0 = .done ∧ (s.sent 0).length = 3)) (by decide +kernel)
  obtain ⟨hlimit, hexec⟩ := of_decide_eq_true htest
  obtain ⟨s, hrun, hdone⟩ := Lts.exists_runIf _ (fun l s => Transmit.noWrap_of_countable)
    soleTransmit hexec
  exact ⟨t', s, hinputs, hdone, transmit_ok solePlatform 128 _ t' _ _ _ rfl rfl (by decide) hinputs
    hlimit hrun⟩

/-! ### The run that wraps -/

namespace Transmit

variable {T : Transmit} {s : TxState}

/-- `load_memories` running with every other process at rest. -/
theorem run_load {m m' : MemProc} {x x' : TxIO}
    (hrun : T.loadMemories.lts.Run (m, x) (m', x')) :
    T.lts.Run { s with load := m, io := x } { s with load := m', io := x' } := by
  suffices h : ∀ q : MemProc × TxIO, T.loadMemories.lts.Run (m, x) q →
      T.lts.Run { s with load := m, io := x } { s with load := q.1, io := q.2 } from h _ hrun
  intro q hq
  induction hq with
  | refl => exact .refl
  | tail l _ _ hstep ih =>
      refine .tail .load ih trivial ?_
      change T.loadMemories.step _ _ = _ at hstep
      simp [lts, hstep]

/-- Words `load_memories` moves either stay in the FIFO or are lost. -/
theorem length_of_moves {c k : Nat} {x y : TxIO} (h : T.loadMemories.Moves c k x y) :
    (y.to_aie_strm c).length + y.lost = (x.to_aie_strm c).length + x.lost + k
      ∧ ((x.to_aie_strm c).length ≤ T.capacity → (y.to_aie_strm c).length ≤ T.capacity)
      ∧ x.lost ≤ y.lost
      ∧ ((x.to_aie_strm c).length + k ≤ T.capacity → y.lost = x.lost) := by
  induction h with
  | refl x => simp
  | @head k x y i hmoves ih =>
      change _ = ((T.writeNb _ c _).to_aie_strm c).length + (T.writeNb _ c _).lost + k
        ∧ (((T.writeNb _ c _).to_aie_strm c).length ≤ _ → _) ∧ (T.writeNb _ c _).lost ≤ _
        ∧ (((T.writeNb _ c _).to_aie_strm c).length + k ≤ _ → _ = (T.writeNb _ c _).lost) at ih
      by_cases hroom : (x.to_aie_strm c).length < T.capacity
      · rw [writeNb_of_room (x := { x with reads := i :: x.reads }) hroom] at ih
        simp only [Function.update_self, List.length_append, List.length_singleton] at ih
        obtain ⟨h1, h2, h3, h4⟩ := ih
        exact ⟨by omega, fun h => h2 (by omega), h3, fun h => h4 (by omega)⟩
      · have hfull : T.writeNb { x with reads := i :: x.reads } c (T.p.readWord T.mem i)
            = { x with reads := i :: x.reads, lost := x.lost + 1 } := if_neg hroom
        rw [hfull] at ih
        obtain ⟨h1, h2, h3, h4⟩ := ih
        refine ⟨by simp only at h1; omega, h2, by simp only at h3; omega, fun h => ?_⟩
        omega

theorem run_feed {c : Nat} (hc : c < T.p.num_channels) (pc : FeedPc) (memStr : List MemWord)
    (out : List Beat)
    (h : feedStep T.p (T.chs.to_aie_ch c) ((s.axi c).length < T.axiDepth c) (s.io.to_aie_strm c)
      (s.feed c) = some (pc, memStr, out)) :
    ∃ s', T.lts.Run s s' ∧ s'.load = s.load ∧ s'.io.lost = s.io.lost
      ∧ s'.io.to_aie_strm c = memStr ∧ s'.feed c = pc
      ∧ (s'.axi c).length = (s.axi c).length + out.length := by
  have hstep : T.lts.step (.feed c) s = some
      { s with
        io := { s.io with to_aie_strm := Function.update s.io.to_aie_strm c memStr }
        feed := Function.update s.feed c pc
        axi := Function.update s.axi c (s.axi c ++ out)
        sent := Function.update s.sent c (s.sent c ++ out) } := by
    simp only [lts, if_pos hc, feedChannel, h, Option.map_some]
  refine ⟨_, .single trivial hstep, rfl, rfl, ?_, ?_, ?_⟩
  · exact Function.update_self _ _ _
  · exact Function.update_self _ _ _
  · simp

/-- `feed` takes `k` words out of the FIFO while `load_memories` rests, where a memory word is one
stream word and the AXI stream has room. -/
theorem run_drain {c : Nat} (hc : c < T.p.num_channels) (hR : T.p.memRatio = 1) (k : Nat)
    (i : Nat) (s : TxState) (hfeed : s.feed c = .head i)
    (hframes : i + k ≤ (T.chs.to_aie_ch c).numFrames) (hfifo : k ≤ (s.io.to_aie_strm c).length)
    (haxi : (s.axi c).length + k ≤ T.axiDepth c) :
    ∃ s', T.lts.Run s s' ∧ s'.load = s.load ∧ s'.io.lost = s.io.lost
      ∧ (s'.io.to_aie_strm c).length = (s.io.to_aie_strm c).length - k := by
  induction k generalizing i s with
  | zero => exact ⟨s, .refl, rfl, rfl, rfl⟩
  | succ k ih =>
      obtain ⟨data, rest, hcons⟩ : ∃ data rest, s.io.to_aie_strm c = data :: rest :=
        List.exists_cons_of_length_pos (by omega)
      obtain ⟨s₁, hrun₁, hload₁, hlost₁, hfifo₁, hfeed₁, haxi₁⟩ :=
        run_feed (s := s) hc (.word i data 0) rest [] (by
          rw [hfeed, hcons, feedStep, hR, Nat.div_one, if_pos (by omega)])
      rw [List.length_nil, Nat.add_zero] at haxi₁
      have hroom : decide ((s₁.axi c).length < T.axiDepth c) = true := decide_eq_true (by omega)
      obtain ⟨s₂, hrun₂, hload₂, hlost₂, hfifo₂, hfeed₂, haxi₂⟩ :=
        run_feed (s := s₁) hc (.word i data 1) rest [T.p.range data 0] (by
            rw [hfeed₁, hfifo₁, feedStep, hR, if_pos Nat.one_pos, hroom]; rfl)
      obtain ⟨s₃, hrun₃, hload₃, hlost₃, hfifo₃, hfeed₃, haxi₃⟩ :=
        run_feed (s := s₂) hc (.head (i + 1)) rest [] (by
          rw [hfeed₂, hfifo₂, feedStep, hR, if_neg (Nat.lt_irrefl 1)])
      rw [List.length_singleton] at haxi₂
      rw [List.length_nil, Nat.add_zero] at haxi₃
      have hlen : (s.io.to_aie_strm c).length = rest.length + 1 := by rw [hcons, List.length_cons]
      obtain ⟨s', hrun, hload, hlost, hlen'⟩ :=
        ih (i + 1) s₃ hfeed₃ (by omega) (by rw [hfifo₃]; omega) (by omega)
      rw [hfifo₃] at hlen'
      exact ⟨s', hrun₁.trans (hrun₂.trans (hrun₃.trans hrun)),
        by rw [hload, hload₃, hload₂, hload₁],
        by rw [hlost, hlost₃, hlost₂, hlost₁], by omega⟩

/-- With 512 words for one channel and bursts of 128, `load_memories` on its own fills the FIFO with
two bursts, finds no room for a third, and goes on to the second test with 256 words left. -/
theorem fills_of_512 (hN : T.p.num_channels = 1) (hR : T.p.memRatio = 1) (hB : T.burst_len = 128)
    (hmode : (T.chs.to_aie_ch 0).mode = .FUNC_MODE)
    (hframes : (T.chs.to_aie_ch 0).numFrames = 512) :
    ∃ x, T.loadMemories.lts.Run (T.init.load, T.init.io)
        (⟨(Scheduler.sole 256).serve 0, .resTest 0 256⟩, x)
      ∧ (x.to_aie_strm 0).length = 256 ∧ x.lost = 0 := by
  have hcap : T.capacity = 256 := by rw [capacity, hB]
  have hwords : T.loadMemories.numWords 0 = 512 := by
    show u32 ((T.chs.to_aie_ch 0).numFrames + T.p.memRatio - 1) / T.p.memRatio = 512
    rw [hframes, hR]
    rfl
  have hdata : ∀ k, k ≤ 512 →
      T.loadMemories.numData (Scheduler.sole k) (Scheduler.sole k).ch_id = 512 - k := by
    intro k hk
    show u32 (T.loadMemories.numWords 0 + 2 ^ 32 - k) = 512 - k
    rw [hwords, u32]
    omega
  have hvalid : ∀ k, (Scheduler.sole k).num_valid_channels ≠ 0 := fun _ => Nat.one_ne_zero
  have hready : ∀ x : TxIO, T.loadMemories.burstReady x 0 = true
      ↔ (x.to_aie_strm 0).length + 128 ≤ 256 := by
    intro x
    show decide ((x.to_aie_strm 0).length + T.burst_len ≤ T.capacity) = true ↔ _
    rw [hB, hcap, decide_eq_true_eq]
  have hstart : T.init.load = ⟨Scheduler.sole 0, .start⟩ := start_of_sole hN
  -- two bursts
  have hstart' : T.loadMemories.step ⟨Scheduler.sole 0, .start⟩ T.init.io
      = some (⟨Scheduler.sole 0, .head⟩, T.init.io) := by
    show some _ = _
    rw [if_pos (show (T.loadMemories.chs 0).mode = .FUNC_MODE from hmode)]
  have hBlen : T.loadMemories.burst_len = 128 := hB
  obtain ⟨x₁, hrun₁, hmoves₁⟩ := run_burst_pass (L := T.loadMemories) (x := T.init.io) (hvalid 0)
    (hdata 0 (by omega)) (by omega) (by omega) ((hready _).mpr (by simp [init]))
  rw [hBlen, Scheduler.sole_advance 0 (by omega)] at hrun₁
  replace hmoves₁ : T.loadMemories.Moves 0 128 T.init.io x₁ := hBlen ▸ hmoves₁
  have hlen₁ := length_of_moves hmoves₁
  have hempty : (T.init.io.to_aie_strm 0).length = 0 ∧ T.init.io.lost = 0 := ⟨rfl, rfl⟩
  rw [hcap] at hlen₁
  obtain ⟨x₂, hrun₂, hmoves₂⟩ := run_burst_pass (L := T.loadMemories) (x := x₁) (hvalid (0 + 128))
    (hdata (0 + 128) (by omega)) (by omega) (by omega) ((hready _).mpr (by omega))
  rw [hBlen, Scheduler.sole_advance (0 + 128) (by omega)] at hrun₂
  replace hmoves₂ : T.loadMemories.Moves 0 128 x₁ x₂ := hBlen ▸ hmoves₂
  have hlen₂ := length_of_moves hmoves₂
  rw [hcap] at hlen₂
  have hfull : (x₂.to_aie_strm 0).length = 256 := by omega
  -- no room for a third
  have hrun₃ : T.loadMemories.lts.Run (⟨Scheduler.sole 256, .head⟩, x₂)
      (⟨(Scheduler.sole 256).serve 0, .resTest 0 256⟩, x₂) := by
    refine (run_step (step_head_serve (hvalid 256) (hdata 256 (by omega)) (by omega))).trans
      (run_step (step_burstTest_neg ?_))
    rintro ⟨-, h⟩
    have := (hready x₂).mp h
    omega
  rw [hstart]
  exact ⟨x₂, (run_step hstart').trans (hrun₁.trans (hrun₂.trans hrun₃)), hfull, by omega⟩

/-- When `feed` empties the full FIFO before the second test, `load_memories` enters the last loop
with 256 words: its counter goes round and words are lost. -/
theorem loses_of_512 (hN : T.p.num_channels = 1) (hR : T.p.memRatio = 1) (hB : T.burst_len = 128)
    (hmode : (T.chs.to_aie_ch 0).mode = .FUNC_MODE) (hframes : (T.chs.to_aie_ch 0).numFrames = 512)
    (hdelays : (T.chs.to_aie_ch 0).delays = 0) (haxi : 256 ≤ T.axiDepth 0) :
    ∃ s, T.lts.Run T.init s ∧ 0 < s.io.lost := by
  have hcap : T.capacity = 256 := by rw [capacity, hB]
  have hc : 0 < T.p.num_channels := by omega
  obtain ⟨x₂, hrun, hfull, -⟩ := fills_of_512 hN hR hB hmode hframes
  -- `feed` empties the FIFO
  have hload : T.lts.Run T.init
      { T.init with load := ⟨(Scheduler.sole 256).serve 0, .resTest 0 256⟩, io := x₂ } :=
    run_load (s := T.init) hrun
  obtain ⟨s₄, hrun₄, hload₄, hlost₄, hfifo₄, hfeed₄, haxi₄⟩ := run_feed
    (s := { T.init with load := ⟨(Scheduler.sole 256).serve 0, .resTest 0 256⟩, io := x₂ }) hc
    (.head 0) (x₂.to_aie_strm 0) []
    (by show feedStep _ _ _ _ (.wait (T.chs.to_aie_ch 0).delays) = _; rw [hdelays]; rfl)
  obtain ⟨s₅, hrun₅, hload₅, hlost₅, hlen₅⟩ := run_drain hc hR 256 0 s₄ hfeed₄ (by omega)
    (by rw [hfifo₄, hfull]) (by rw [haxi₄]; exact haxi)
  rw [hfifo₄, hfull] at hlen₅
  -- the test of the rest now passes, with 256 words
  have hpc₅ : s₅.load = ⟨(Scheduler.sole 256).serve 0, .resTest 0 256⟩ := hload₅.trans hload₄
  have hrest : T.loadMemories.resReady s₅.io 0 256 = true := by
    show decide ((s₅.io.to_aie_strm 0).length + 256 ≤ T.capacity) = true
    rw [hcap, hlen₅]
    rfl
  obtain ⟨j, x₆, hrun₆, hmoves₆⟩ :=
    run_wrapped (L := T.loadMemories) ((Scheduler.sole 256).serve 0) 0 256
    (by omega) 257 0 (by omega) s₅.io
  have hlen₆ := length_of_moves hmoves₆
  rw [hcap, hlen₅] at hlen₆
  have hlast := run_load (s := s₅) ((run_step (step_resTest_pos hrest)).trans hrun₆)
  rw [← hpc₅] at hlast
  refine ⟨_, hload.trans (hrun₄.trans (hrun₅.trans hlast)), ?_⟩
  show 0 < x₆.lost
  omega

end Transmit

/-- Not every run is correct: 512 words for one channel, bursts of 128 words. -/
theorem not_transmit_ok : ¬ ∀ (p : Platform) (burst_len : Nat) (t t' : Transaction)
    (args : List TestHarnessArgs) (axiDepth : Nat → Nat) (s : TxState),
    1 ≤ burst_len → burst_len ≤ 128 → p.memRatio ∣ burst_len → t.setup = p.toSetup →
    t.mode = .FUNC_MODE → DistinctChannels args → t.handleInputs args = .ok t' →
    t'.getMemoryUsage ≤ 2 ^ 30 →
    (transmitOf p burst_len t' axiDepth).lts.Run (transmitOf p burst_len t' axiDepth).init s →
    TransmitOk (transmitOf p burst_len t' axiDepth) args s := by
  intro hall
  obtain ⟨t', hinputs, htest⟩ := exists_of_test (e := (soleTransaction .FUNC_MODE).handleInputs
    [soleArgument 512 (by decide)])
    (fun t' : Transaction => decide (t'.getMemoryUsage ≤ 2 ^ 30
      ∧ loadChannel solePlatform t'.cfg_ptr 0 0 = ⟨.FUNC_MODE, 512, 1, 0, 0⟩)) (by decide +kernel)
  obtain ⟨hlimit, hchannel⟩ := of_decide_eq_true htest
  obtain ⟨s, hrun, hlost⟩ :=
    Transmit.loses_of_512 (T := transmitOf solePlatform 128 t' fun _ => 256)
    rfl (show solePlatform.memRatio = 1 by decide) rfl (congrArg Channel.mode hchannel)
      (congrArg Channel.numFrames hchannel)
    (congrArg Channel.delays hchannel) (Nat.le_refl _)
  have hok := hall solePlatform 128 _ t' _ (fun _ => 256) s (by decide) (by decide)
    (by decide) rfl rfl (by decide) hinputs hlimit hrun
  have := hok.lost_eq
  omega

end AieTestHarness
