import AieTestHarness.Proof.Computed
import AieTestHarness.Proof.HarnessReceive

/-!
# The kernel in functional mode, end to end

A run of the region in which every process has returned: the graph has taken the user's data, and
what it puts out on it is what the user gets.
-/

namespace AieTestHarness

open Slices MemLoop

namespace Harness

variable {H : Harness} {s s' : HarnessState}

theorem length_perfAfter : (H.perfAfter s).length = H.perf.length := by
  simp only [perfAfter, storePerf, length_storePerfLoop]

theorem storeBuffs_of_func {p : Kernel} {chs : Channels} {buffs : Nat → List Beat}
    {mem : List UInt8}
    (hmode : ∀ c, (chs.from_aie_ch c).mode = .FUNC_MODE) : storeBuffs p chs buffs mem = mem := by
  unfold storeBuffs
  refine List.foldlRecOn (motive := fun mem' : List UInt8 => mem' = mem) _ _ rfl
    fun mem' hmem c _ => ?_
  rw [storeBuff, hmode c]
  exact hmem

theorem memAfter_of_func (hfunc : H.Func) : H.memAfter s = s.io.mem :=
  storeBuffs_of_func hfunc.from_mode

/-! ### Both sides -/

theorem toTx_run (hfunc : H.Func) (hrun : H.lts.Run H.init s) :
    H.transmit.lts.Run H.transmit.init (toTx s) := by
  have hsim : Lts.Simulates H.lts H.transmit.lts toTx AllFunc (fun _ _ => True)
    (fun _ _ => True) := by
    intro l s s' hall _ hstep
    exact (tx_of_step hfunc hall hstep).2.imp_right fun h => ⟨_, trivial, h.1⟩
  exact hsim.run (fun l s s' hall _ hstep => (tx_of_step hfunc hall hstep).1)
    (fun c j i => FeedProc.noConfusion) hrun

theorem toRx_init (inputs : Nat → List Beat) :
    H.toRx inputs H.init = (H.receive (H.delivered inputs)).init :=
  toRx_eq rfl rfl fun _ => ⟨rfl, List.take_nil, rfl⟩

theorem toRx_run (hfunc : H.Func) {inputs : Nat → List Beat} (hrun : H.lts.Run H.init s)
    (htaken : ∀ c, s.taken c <+: inputs c) :
    (H.receive (H.delivered inputs)).lts.Run (H.receive (H.delivered inputs)).init
      (H.toRx inputs s) ∧ ∀ c, H.RxView inputs s c := by
  have hpart := hrun.of_end (P := fun s => ∀ c, s.taken c <+: inputs c)
    (fun l s s' hstep h c => (taken_of_step hstep c).trans (h c)) htaken
  have hview : ∀ c, H.RxView inputs H.init c := by
    intro c
    refine ⟨trivial, rfl, [], trivial, Nat.zero_le _, ?_, Nat.le_refl _, rfl⟩
    rw [toRx_init]
    exact List.nil_append _
  have hsim : Lts.Simulates H.lts (H.receive (H.delivered inputs)).lts (H.toRx inputs)
      (fun s => ∀ c, H.RxView inputs s c) (fun _ s => True ∧ ∀ c, s.taken c <+: inputs c)
      (fun _ _ => True) := by
    intro l s s' hI hC hstep
    exact (rx_of_step hfunc hC.2 hI hstep).2.imp_right fun h => ⟨_, trivial, h⟩
  rw [← toRx_init]
  refine ⟨hsim.run (fun l s s' hI hC hstep => (rx_of_step hfunc hC.2 hI hstep).1) hview hpart,
    hpart.invariant (fun l s s' hI hC hstep => (rx_of_step hfunc hC.2 hI hstep).1) hview⟩

/-! ### The whole run -/

section Complete

variable {t' : Transaction} {args : List TestHarnessArgs}

theorem transmit_eq (hbuffers : H.buffers = t'.buffers) :
    H.transmit = transmitOf H.p H.burst_len t' H.to_depth := by
  have hcfg : H.cfg = t'.cfg_ptr := congrArg PlBuffers.cfg hbuffers
  have hmem : H.to_aie_mem = t'.to_aie_ptr := congrArg PlBuffers.to_aie hbuffers
  rw [transmit, transmitOf, chs, hcfg, hmem]

theorem receive_eq (hbuffers : H.buffers = t'.buffers) (beats : Nat → List Beat) :
    H.receive beats = receiveOf H.p H.burst_len t' beats H.from_depth H.from_pos := by
  have hcfg : H.cfg = t'.cfg_ptr := congrArg PlBuffers.cfg hbuffers
  have hmem : H.from_aie_mem = t'.from_aie_ptr := congrArg PlBuffers.from_aie hbuffers
  unfold receive receiveOf chs
  rw [hcfg, hmem]

theorem func_of_layout (hto : FuncToLayout H.p t' args) (hbuffers : H.buffers = t'.buffers) :
    H.Func := by
  have hcfg : H.cfg = t'.cfg_ptr := congrArg PlBuffers.cfg hbuffers
  intro c
  change cfgMode H.cfg = _
  rw [hcfg]
  exact hto.cfg_mode

/-- A channel whose `feed` is through has sent the user's data. -/
theorem sent_eq_streams (hto : FuncToLayout H.p t' args) (hdistinct : DistinctChannels args)
    (hbuffers : H.buffers = t'.buffers) (hrun : H.lts.Run H.init s) (hload : s.load.pc = .done)
    {c : Nat} (hc : c < H.p.num_channels) (hfeed : (s.to_aie_ch c).proc.pc = .returned) :
    s.taken c ++ s.to_aie_strm c = streams H.p .FUNC_MODE args c := by
  have hok : TransmitOk H.transmit args (toTx s) := by
    have hpart := Transmit.noWrap_of_done (toTx_run (func_of_layout hto hbuffers) hrun) hload
    rw [transmit_eq hbuffers] at hpart ⊢
    exact transmitOk_of_inv hto (Transmit.inv_of_run (transmitOf_small _ _ hto) hpart)
  rw [← sent_of_run hrun c]
  have hdone : (toTx s).feed c = .done := congrArg FeedProc.funcPc hfeed
  by_cases hlisted : ∀ a ∈ args, a.IsTo H.p.toSetup → a.toChn ≠ c
  · rw [streams_of_unlisted hlisted]
    exact hok.unlisted c hc hlisted
  · simp only [not_forall, not_not] at hlisted
    obtain ⟨a, ha, hato, rfl⟩ := hlisted
    rw [streams_of_mem hdistinct ha hato]
    exact hok.sent_eq a ha hato hload hdone

/-- When every process has returned the graph has taken nothing but the user's data. -/
theorem taken_prefix (hto : FuncToLayout H.p t' args) (hdistinct : DistinctChannels args)
    (hbuffers : H.buffers = t'.buffers) (hrun : H.lts.Run H.init s) (hcomplete : H.Complete s)
    (c : Nat) : s.taken c <+: streams H.p .FUNC_MODE args c := by
  by_cases hc : c < H.p.num_channels
  · rw [← sent_eq_streams hto hdistinct hbuffers hrun hcomplete.load hc
      (hcomplete.to_aie_ch c hc).1]
    exact List.prefix_append ..
  · rw [taken_of_ge hrun (Nat.le_of_not_lt hc)]
    exact List.nil_prefix

/-- The graph then has put out as much as was asked for. -/
theorem delivers (hto : FuncToLayout H.p t' args) (hfrom : FuncFromLayout H.p t' args)
    (hbuffer : ∀ a ∈ args, a.IsFrom H.p.toSetup → a.size ≤ a.data.bytes.length)
    (hbuffers : H.buffers = t'.buffers) {inputs : Nat → List Beat} (hrun : H.lts.Run H.init s)
    (htaken : ∀ c, s.taken c <+: inputs c) (hcomplete : H.Complete s) :
    Delivers H.p args (H.delivered inputs) := by
  refine ⟨H.sized_delivered inputs, fun a ha hafrom => ?_⟩
  obtain ⟨off, hentry, hregion⟩ := hfrom.listed a ha hafrom
  have hdecoded := fromDecoded hto ha (hbuffer a ha hafrom) hentry hregion
  have hcfg : H.cfg = t'.cfg_ptr := congrArg PlBuffers.cfg hbuffers
  have hframes : (H.chs.from_aie_ch a.fromChn).numFrames = a.size / H.p.word_size := by
    rw [chs, hcfg]
    exact hdecoded.frames_eq
  have hview := ((toRx_run (func_of_layout hto hbuffers) hrun htaken).2 a.fromChn).given_eq
  have hreads : H.readsAt s a.fromChn = (H.chs.from_aie_ch a.fromChn).numFrames := by
    rw [readsAt, (hcomplete.from_aie_ch _ hafrom.fromChn_lt).1]
    rfl
  have hgiven := given_le_of_run hrun a.fromChn
  have hmono := (H.graph.mono htaken a.fromChn).length_le
  rw [delivered, List.length_take, hframes]
  omega

theorem computed_func (hB : 1 ≤ H.burst_len) (hB' : H.burst_len ≤ 128)
    (hto : FuncToLayout H.p t' args) (hfrom : FuncFromLayout H.p t' args)
    (hdistinct : DistinctChannels args)
    (hbuffer : ∀ a ∈ args, a.IsFrom H.p.toSetup → a.size ≤ a.data.bytes.length)
    (hbuffers : H.buffers = t'.buffers) (hrun : H.lts.Run H.init s) (hcomplete : H.Complete s) :
    ∃ t'', (t'.withResults (H.after s)).handleOutputs = .ok t''
      ∧ List.Forall₂ (Rewritten H.p.toSetup) args t''.args_rec
      ∧ Computed H.p H.graph .FUNC_MODE t''.args_rec := by
  have hfunc := func_of_layout hto hbuffers
  have htaken := taken_prefix hto hdistinct hbuffers hrun hcomplete
  have hbeats := delivers hto hfrom hbuffer hbuffers hrun htaken hcomplete
  have hrx := (toRx_run hfunc hrun htaken).1
  have hdone : (H.toRx (streams H.p .FUNC_MODE args) s).store.pc = .done := hcomplete.store
  rw [receive_eq hbuffers] at hrx
  have hfits :
    (receiveOf H.p H.burst_len t' (H.delivered (streams H.p .FUNC_MODE args)) H.from_depth
      H.from_pos).Fits := receiveOf_fits hto hfrom hB hB' hbuffer hbeats
  have hinv := Receive.inv_of_run hfits (Receive.inv_init _)
    (Receive.noWrap_of_done hfits hrx hdone)
  have hok := receiveOk_of_inv hto hfrom hbuffer hbeats hfits hinv
  have hperf : (H.perfAfter s).length = H.p.num_channels * 4 := by
    rw [length_perfAfter, show H.perf = t'.perf_ptr from congrArg PlBuffers.perf hbuffers]
    exact hto.perf_length
  obtain ⟨t'', hout, hall⟩ := hok.outputs hdone (H.perfAfter s) hperf
  have hout : (t'.withResults (H.after s)).handleOutputs = .ok t'' := by
    unfold Transaction.withResults after
    rw [memAfter_of_func hfunc]
    exact hout
  have hkept : List.Forall₂ (Rewritten H.p.toSetup) args t''.args_rec := by
    have hkept := handleOutputs_kept hout
    change List.Forall₂ (Rewritten t'.setup) t'.args_rec t''.args_rec at hkept
    rwa [hto.setup_eq, hto.args_eq] at hkept
  refine ⟨t'', hout, hkept, computed_of_forall₂ hkept (forall₂_imp_of_mem hall ?_)⟩
  intro a ha a' hbytes hafrom hrep _
  have hone : a.repetition.toNat = 1 := (hto.checked a ha).2
  have hlen := hbeats.length_eq a ha hafrom
  rw [hbytes hafrom, TestHarnessArgs.expected, hone, Nat.sub_self, Nat.zero_mul, slice_zero_off]
  change (H.delivered _ a.fromChn).flatten = _
  rw [← hlen, delivered]
  congr 1
  rw [List.length_take, List.take_eq_take_min]

end Complete

end Harness

end AieTestHarness
