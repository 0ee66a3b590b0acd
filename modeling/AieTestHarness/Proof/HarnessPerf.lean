import AieTestHarness.Proof.HarnessFunc
import AieTestHarness.Proof.PerfReceive

/-!
# The kernel in performance mode, end to end

Each channel is on its own here: what `feed` has sent and what it is still to send is the buffer
played over, and what `get` has read has gone into the buffer. The graph stands between the two.
-/

namespace AieTestHarness

open Slices

section Feed

variable {p : Kernel} {ch : Channel} {buff : List Beat}

def FeedProc.perfRest (p : Kernel) (ch : Channel) (buff : List Beat) : FeedProc → List Beat
  | .wait _ | .first => feedPerf p ch buff
  | .perf 0 _ => []
  | .perf (j + 1) i => feedFrames p ch buff i ++ feedReps p ch buff j
  | .func _ | .last | .returned => []

theorem perfRest_round (j : Nat) :
    (FeedProc.perf j ch.numFrames).perfRest p ch buff = feedReps p ch buff j := by
  cases j with
  | zero => rfl
  | succ j => rfl

structure PerfFed (p : Kernel) (ch : Channel) (buff : List Beat) (x : FeedState) : Prop where
  not_func : ∀ pc, x.pc ≠ .func pc
  sent_eq : beatsOf x.acts ++ x.pc.perfRest p ch buff = feedPerf p ch buff

theorem PerfFed.next (hmode : ch.mode = .PERF_MODE) {room trig : Bool} {x y : FeedState}
    (hI : PerfFed p ch buff x) (h : FeedState.next p ch buff room x = some (y, trig)) :
    PerfFed p ch buff y := by
  obtain ⟨pc, memStr, acts⟩ := x
  obtain ⟨hfunc, hsent⟩ := hI
  cases pc with
  | wait count =>
      cases count with
      | zero =>
          obtain ⟨rfl, -⟩ := Prod.mk.inj (Option.some.inj h)
          exact ⟨fun pc => FeedProc.noConfusion, hsent⟩
      | succ count =>
          obtain ⟨rfl, -⟩ := Prod.mk.inj (Option.some.inj h)
          exact ⟨fun pc => FeedProc.noConfusion, hsent⟩
  | first =>
      obtain ⟨rfl, -⟩ := Prod.mk.inj (Option.some.inj h)
      have hbranch : FeedState.branch ch = .perf ch.numRep ch.numFrames := by
        rw [FeedState.branch, hmode]
      refine ⟨?_, ?_⟩
      · intro pc
        change FeedState.branch ch ≠ _
        rw [hbranch]
        exact FeedProc.noConfusion
      · change beatsOf (acts ++ [.trigger]) ++ (FeedState.branch ch).perfRest p ch buff = _
        rw [hbranch, perfRest_round, beatsOf_append, beatsOf_trigger, List.append_nil]
        exact hsent
  | func pc => exact absurd rfl (hfunc pc)
  | perf j i =>
      cases j with
      | zero =>
          obtain ⟨rfl, -⟩ := Prod.mk.inj (Option.some.inj h)
          exact ⟨fun pc => FeedProc.noConfusion, hsent⟩
      | succ j =>
          cases i with
          | zero =>
              obtain ⟨rfl, -⟩ := Prod.mk.inj (Option.some.inj h)
              refine ⟨fun pc => FeedProc.noConfusion, ?_⟩
              change beatsOf acts ++ (FeedProc.perf j ch.numFrames).perfRest p ch buff = _
              rw [perfRest_round]
              exact hsent
          | succ i =>
              simp only [FeedState.next] at h
              split at h
              · obtain ⟨rfl, -⟩ := Prod.mk.inj (Option.some.inj h)
                refine ⟨fun pc => FeedProc.noConfusion, ?_⟩
                rw [← hsent, beatsOf_append, List.append_assoc]
                rfl
              · cases h
  | last =>
      obtain ⟨rfl, -⟩ := Prod.mk.inj (Option.some.inj h)
      refine ⟨fun pc => FeedProc.noConfusion, ?_⟩
      change beatsOf (acts ++ [.trigger]) ++ [] = _
      rw [beatsOf_append, beatsOf_trigger, List.append_nil]
      exact hsent
  | returned => cases h

end Feed

section Get

variable {p : Kernel} {ch : Channel}

def GetProc.perfRest (p : Kernel) (ch : Channel) (buff rest : List Beat) :
    GetProc → Option (List Beat × List Beat)
  | .wait _ => getPerf p ch buff rest
  | .perf 0 _ _ | .perfMark 0 _ => some (buff, rest)
  | .perf (j + 1) i _ | .perfMark (j + 1) i => do
    let (buff, rest) ← getFrames p ch i buff rest
    getReps p ch j buff rest
  | .func _ _ | .funcMark _ | .after _ | .last | .returned => some (buff, rest)

theorem GetProc.perfRest_round (j : Nat) (firstData : Bool) (buff rest : List Beat) :
    (GetProc.perf j ch.numFrames firstData).perfRest p ch buff rest = getReps p ch j buff rest := by
  cases j with
  | zero => rfl
  | succ j => rfl

/-- `get` is not in the branch of the functional mode. -/
def GetProc.Perf : GetProc → Prop
  | .func _ _ | .funcMark _ => False
  | _ => True

/-- The invariant of `get` in performance mode, `uram` being what the buffer held before. -/
structure PerfGot (p : Kernel) (ch : Channel) (uram : List Beat) (x : GetState) : Prop where
  perf : x.pc.Perf
  buff_eq : ∀ rest, getPerf p ch uram (beatsOf x.acts ++ rest) = x.pc.perfRest p ch x.buff rest

theorem PerfGot.next (hmode : ch.mode = .PERF_MODE) {uram : List Beat} {room trig : Bool}
    {x y : GetState} (hI : PerfGot p ch uram x) (h : GetState.next p ch room x = some (y, trig)) :
    PerfGot p ch uram y := by
  obtain ⟨pc, strm, buff, acts⟩ := x
  obtain ⟨hperf, hbuff⟩ := hI
  -- a trigger is no stream word
  have htrigger : beatsOf (acts ++ [.trigger]) = beatsOf acts := by
    rw [beatsOf_append, beatsOf_trigger, List.append_nil]
  cases pc with
  | wait count =>
      cases count with
      | zero =>
          obtain ⟨rfl, -⟩ := Prod.mk.inj (Option.some.inj h)
          have hbranch : GetState.branch ch = .perf ch.numRep ch.numFrames true := by
            rw [GetState.branch, hmode]
          refine ⟨?_, fun rest => ?_⟩
          · change (GetState.branch ch).Perf
            rw [hbranch]
            trivial
          · change _ = (GetState.branch ch).perfRest p ch buff rest
            rw [hbranch, GetProc.perfRest_round]
            exact hbuff rest
      | succ count =>
          obtain ⟨rfl, -⟩ := Prod.mk.inj (Option.some.inj h)
          exact ⟨trivial, hbuff⟩
  | func pc firstData => exact hperf.elim
  | funcMark pc => exact hperf.elim
  | perf j i firstData =>
      cases j with
      | zero =>
          obtain ⟨rfl, -⟩ := Prod.mk.inj (Option.some.inj h)
          exact ⟨trivial, hbuff⟩
      | succ j =>
          cases i with
          | zero =>
              obtain ⟨rfl, -⟩ := Prod.mk.inj (Option.some.inj h)
              refine ⟨trivial, fun rest => ?_⟩
              change _ = (GetProc.perf j ch.numFrames firstData).perfRest p ch buff rest
              rw [GetProc.perfRest_round]
              exact hbuff rest
          | succ i =>
              cases strm with
              | nil => cases h
              | cons tmp strm =>
                  obtain ⟨rfl, -⟩ := Prod.mk.inj (Option.some.inj h)
                  have hread : ∀ rest, getPerf p ch uram (beatsOf (acts ++ [.beat tmp]) ++ rest)
                      = (GetProc.perf (j + 1) i false).perfRest p ch
                        (buff.set ((ch.numFrames - (i + 1)) % p.depth) tmp) rest := by
                    intro rest
                    rw [beatsOf_append, List.append_assoc]
                    exact hbuff (tmp :: rest)
                  cases firstData with
                  | true => exact ⟨trivial, hread⟩
                  | false => exact ⟨trivial, hread⟩
  | perfMark j i =>
      obtain ⟨rfl, -⟩ := Prod.mk.inj (Option.some.inj h)
      refine ⟨trivial, fun rest => ?_⟩
      change getPerf p ch uram (beatsOf (acts ++ [.trigger]) ++ rest) = _
      rw [htrigger, hbuff]
      cases j with
      | zero => rfl
      | succ j => rfl
  | after firstData =>
      cases firstData with
      | true =>
          obtain ⟨rfl, -⟩ := Prod.mk.inj (Option.some.inj h)
          refine ⟨trivial, fun rest => ?_⟩
          change getPerf p ch uram (beatsOf (acts ++ [.trigger]) ++ rest) = _
          rw [htrigger, hbuff]
          rfl
      | false =>
          obtain ⟨rfl, -⟩ := Prod.mk.inj (Option.some.inj h)
          exact ⟨trivial, hbuff⟩
  | last =>
      obtain ⟨rfl, -⟩ := Prod.mk.inj (Option.some.inj h)
      refine ⟨trivial, fun rest => ?_⟩
      change getPerf p ch uram (beatsOf (acts ++ [.trigger]) ++ rest) = _
      rw [htrigger, hbuff]
      rfl
  | returned => cases h

theorem getFrames_length {i : Nat} {buff strm buff' rest : List Beat}
    (h : getFrames p ch i buff strm = some (buff', rest)) : strm.length = i + rest.length := by
  induction i generalizing buff strm with
  | zero =>
      obtain ⟨-, rfl⟩ := Prod.mk.inj (Option.some.inj h)
      exact (Nat.zero_add _).symm
  | succ i ih =>
      cases strm with
      | nil => cases h
      | cons tmp strm =>
          rw [List.length_cons, ih h]
          omega

theorem getReps_length {j : Nat} {buff strm buff' rest : List Beat}
    (h : getReps p ch j buff strm = some (buff', rest)) :
    strm.length = j * ch.numFrames + rest.length := by
  induction j generalizing buff strm with
  | zero =>
      obtain ⟨-, rfl⟩ := Prod.mk.inj (Option.some.inj h)
      rw [Nat.zero_mul, Nat.zero_add]
  | succ j ih =>
      obtain ⟨⟨buff₁, strm₁⟩, hframes, hreps⟩ := Option.bind_eq_some_iff.mp h
      rw [getFrames_length hframes, ih hreps, Nat.succ_mul]
      omega

end Get

namespace Harness

variable {H : Harness} {s : HarnessState} {t' : Transaction} {args : List TestHarnessArgs}

theorem perfFed_of_run (hrun : H.lts.Run H.init s) {c : Nat}
    (hmode : (H.chs.to_aie_ch c).mode = .PERF_MODE) :
    PerfFed H.p (H.chs.to_aie_ch c) (H.buff c) (s.to_aie_ch c).proc := by
  refine proc_of_run (fun l x y trig hI hstep => ?_)
    ⟨fun pc => FeedProc.noConfusion, List.nil_append _⟩ (loadStream_run hrun c)
  cases l with
  | step room => exact hI.next hmode hstep
  | mem data =>
      obtain ⟨rfl, -⟩ := Prod.mk.inj (Option.some.inj hstep)
      exact ⟨hI.not_func, hI.sent_eq⟩

theorem perfGot_of_run (hrun : H.lts.Run H.init s) {c : Nat}
    (hmode : (H.chs.from_aie_ch c).mode = .PERF_MODE) :
    PerfGot H.p (H.chs.from_aie_ch c) (H.from_uram c) (s.from_aie_ch c).proc := by
  have hinit : PerfGot H.p (H.chs.from_aie_ch c) (H.from_uram c)
      (.init (H.chs.from_aie_ch c) (H.from_uram c)) := ⟨trivial, fun rest => rfl⟩
  refine proc_of_run (fun l x y trig hI hstep => ?_) hinit (storeStream_run hrun c)
  cases l with
  | step room => exact hI.next hmode hstep
  | aie b =>
      obtain ⟨rfl, -⟩ := Prod.mk.inj (Option.some.inj hstep)
      exact ⟨hI.perf, hI.buff_eq⟩

/-- What a channel has sent when `feed` has returned. -/
theorem sent_of_returned (hrun : H.lts.Run H.init s) {c : Nat}
    (hmode : (H.chs.to_aie_ch c).mode = .PERF_MODE) (hpc : (s.to_aie_ch c).proc.pc = .returned) :
    s.taken c ++ s.to_aie_strm c = feedPerf H.p (H.chs.to_aie_ch c) (H.buff c) := by
  have hsent := (perfFed_of_run hrun hmode).sent_eq
  rw [hpc] at hsent
  rw [← hsent, ← sent_of_run hrun c]
  exact (List.append_nil _).symm

/-- What `get` has made of what it has read. -/
theorem got_of_returned (hrun : H.lts.Run H.init s) {c : Nat}
    (hmode : (H.chs.from_aie_ch c).mode = .PERF_MODE)
    (hpc : (s.from_aie_ch c).proc.pc = .returned) :
    getPerf H.p (H.chs.from_aie_ch c) (H.from_uram c) (beatsOf (s.from_aie_ch c).proc.acts)
      = some ((s.from_aie_ch c).proc.buff, []) := by
  have hgot := (perfGot_of_run hrun hmode).buff_eq []
  rw [hpc, List.append_nil] at hgot
  exact hgot

/-- `store_memories` does nothing in performance mode, and nothing else writes to memory. -/
theorem mem_of_perf (hmode : ∀ c, (H.chs.from_aie_ch c).mode = .PERF_MODE)
    (hrun : H.lts.Run H.init s) :
    s.io.mem = H.from_aie_mem := by
  suffices h : (s.store.pc = .start ∨ s.store.pc = .done) ∧ s.io.mem = H.from_aie_mem from h.2
  refine hrun.invariant (I := fun s =>
    (s.store.pc = .start ∨ s.store.pc = .done) ∧ s.io.mem = H.from_aie_mem) ?_ ⟨Or.inl rfl, rfl⟩
  intro l s s' hI _ hstep
  cases l with
  | load =>
      obtain ⟨load, io, -, rfl⟩ := load_eq_some hstep
      exact hI
  | feed c =>
      obtain ⟨-, ch, -, rfl⟩ := feed_eq_some hstep
      exact hI
  | countTo c =>
      obtain ⟨-, ch, -, rfl⟩ := countTo_eq_some hstep
      exact hI
  | take c =>
      obtain ⟨-, b, rest, -, rfl⟩ := take_eq_some hstep
      exact hI
  | give c =>
      obtain ⟨-, b, -, -, rfl⟩ := give_eq_some hstep
      exact hI
  | get c =>
      obtain ⟨-, ch, room, -, -, rfl⟩ := get_eq_some hstep
      exact hI
  | countFrom c =>
      obtain ⟨-, ch, -, rfl⟩ := countFrom_eq_some hstep
      exact hI
  | store =>
      obtain ⟨store, io, hstore, rfl⟩ := store_eq_some hstep
      obtain ⟨hpc, hmem⟩ := hI
      rcases hpc with hpc | hpc
      · simp only [MemLoop.step, hpc] at hstore
        obtain ⟨rfl, rfl⟩ := Prod.mk.inj (Option.some.inj hstore)
        refine ⟨Or.inr ?_, hmem⟩
        exact if_neg fun h => TestMode.noConfusion ((hmode 0).symm.trans h)
      · simp only [MemLoop.step, hpc] at hstore
        cases hstore

theorem chs_eq (hbuffers : H.buffers = t'.buffers) : H.chs = loadCfg H.p t'.cfg_ptr := by
  rw [chs, show H.cfg = t'.cfg_ptr from congrArg PlBuffers.cfg hbuffers]

/-- A channel plays the user's data. -/
theorem feedPerf_eq_streams (haddr : Addressable H.p) (hlayout : PerfLayout H.p t' args)
    (hdistinct : DistinctChannels args) (hbuffers : H.buffers = t'.buffers)
    (hsmall : ∀ a ∈ args, a.size / H.p.word_size < 2 ^ 32 ∧ a.repetition.toNat < 2 ^ 32) {c : Nat}
    (hc : c < H.p.num_channels) :
    feedPerf H.p (H.chs.to_aie_ch c) (H.buff c) = streams H.p .PERF_MODE args c := by
  have hmem : H.to_aie_mem = t'.to_aie_ptr := congrArg PlBuffers.to_aie hbuffers
  have hchannel : H.chs.to_aie_ch c = loadChannel H.p t'.cfg_ptr 0 c := by
    rw [chs_eq hbuffers]
    rfl
  by_cases hlisted : ∀ a ∈ args, a.IsTo H.p.toSetup → a.toChn ≠ c
  · rw [streams_of_unlisted hlisted, hchannel, hlayout.unlisted_to c hc hlisted]
    rfl
  · simp only [not_forall, not_not] at hlisted
    obtain ⟨a, ha, hato, rfl⟩ := hlisted
    obtain ⟨hframes, hrep⟩ := hsmall a ha
    have hround : feedRound H.p (perfChannel H.p a a.toChn) (H.buff a.toChn)
        = (List.range (a.size / H.p.word_size)).map fun i =>
          xorBeat (a.frame H.p (i % H.p.depth)) (passMask H.p (i / H.p.depth)) := by
      rw [feedRound, show (perfChannel H.p a a.toChn).numFrames = a.size / H.p.word_size from
        u32_of_lt hframes]
      refine List.map_congr_left fun i hi => ?_
      rw [buff, hchannel, (hlayout.listed_to a ha hato).1, hmem]
      exact feedBeat_loadBuff haddr hlayout ha hato (H.to_uram_length _) hframes
        (List.mem_range.mp hi)
    rw [streams_of_mem hdistinct ha hato, hchannel, (hlayout.listed_to a ha hato).1, feedPerf,
      feedReps_eq, hround, show (perfChannel H.p a a.toChn).numRep = a.repetition.toNat from
        u32_of_lt hrep]
    rfl

theorem computed_perf (haddr : Addressable H.p) (hlayout : PerfLayout H.p t' args)
    (hdistinct : DistinctChannels args)
    (hbuffer : ∀ a ∈ args, a.IsFrom H.p.toSetup → a.size ≤ a.data.bytes.length)
    (hsmall : ∀ a ∈ args, a.size / H.p.word_size < 2 ^ 32 ∧ a.repetition.toNat < 2 ^ 32)
    (hbuffers : H.buffers = t'.buffers) (hrun : H.lts.Run H.init s) (hcomplete : H.Complete s) :
    ∃ t'', (t'.withResults (H.after s)).handleOutputs = .ok t''
      ∧ List.Forall₂ (Rewritten H.p.toSetup) args t''.args_rec
      ∧ Computed H.p H.graph .PERF_MODE t''.args_rec := by
  have hcfg := chs_eq hbuffers
  have hmodes : ∀ c, (H.chs.to_aie_ch c).mode = .PERF_MODE := by
    intro c
    rw [hcfg]
    exact hlayout.cfg_mode
  have hmodes' : ∀ c, (H.chs.from_aie_ch c).mode = .PERF_MODE := hmodes
  have htaken : ∀ c, s.taken c <+: streams H.p .PERF_MODE args c := by
    intro c
    by_cases hc : c < H.p.num_channels
    · rw [← feedPerf_eq_streams haddr hlayout hdistinct hbuffers hsmall hc,
        ← sent_of_returned hrun (hmodes c) (hcomplete.to_aie_ch c hc).1]
      exact List.prefix_append ..
    · rw [taken_of_ge hrun (Nat.le_of_not_lt hc)]
      exact List.nil_prefix
  -- what `get` has read are the first words the graph puts out on the user's data
  have hread : ∀ c, beatsOf (s.from_aie_ch c).proc.acts
      <+: H.graph.out (streams H.p .PERF_MODE args) c := by
    intro c
    have hreceived := received_eq_of_run hrun c
    have hprefix : beatsOf (s.from_aie_ch c).proc.acts <+: H.graph.out s.taken c := by
      refine (List.prefix_append _ (s.from_aie_ch c).proc.strm).trans ?_
      change received s c <+: _
      rw [hreceived]
      exact List.take_prefix ..
    exact hprefix.trans (H.graph.mono htaken c)
  have hreceived : PerfReceived H.p (loadCfg H.p t'.cfg_ptr) H.from_uram
      (fun c => beatsOf (s.from_aie_ch c).proc.acts) fun c => (s.from_aie_ch c).proc.buff := by
    refine ⟨fun c _ => H.from_uram_length c, fun c _ => H.from_uram_sized c, ?_, ?_⟩
    · intro c _ b hb
      exact H.graph.sized _ c b ((hread c).subset hb)
    · intro c hc
      rw [← hcfg]
      exact ⟨[], got_of_returned hrun (hmodes' c) (hcomplete.from_aie_ch c hc).1⟩
  have hmem : s.io.mem = t'.from_aie_ptr :=
    (mem_of_perf hmodes' hrun).trans (congrArg PlBuffers.from_aie hbuffers)
  have hperf : (H.perfAfter s).length = H.p.num_channels * 4 := by
    rw [length_perfAfter, show H.perf = t'.perf_ptr from congrArg PlBuffers.perf hbuffers]
    exact hlayout.perf_length
  obtain ⟨t'', hout, -, -, hall⟩ := perfCopied_of_stored haddr hlayout hbuffer
    (fun c hc => (hreceived.buffs_ok hc).1) (fun c hc => (hreceived.buffs_ok hc).2)
    (show s.io.mem.length = _ by rw [hmem]) hperf
  have hout : (t'.withResults (H.after s)).handleOutputs = .ok t'' := by
    unfold Transaction.withResults after memAfter
    rw [hcfg]
    exact hout
  have hkept : List.Forall₂ (Rewritten H.p.toSetup) args t''.args_rec := by
    have hkept := handleOutputs_kept hout
    change List.Forall₂ (Rewritten t'.setup) t'.args_rec t''.args_rec at hkept
    rwa [hlayout.setup_eq, hlayout.args_eq] at hkept
  refine ⟨t'', hout, hkept, computed_of_forall₂ hkept (forall₂_imp_of_mem hall ?_)⟩
  intro a ha a' hcopied hafrom hrep hfits
  have hdecoded := perfDecoded haddr hlayout ha hafrom (hsmall a ha).2 (hfits rfl)
  have hlen : (beatsOf (s.from_aie_ch a.fromChn).proc.acts).length
      = a.repetition.toNat * (a.size / H.p.word_size) := by
    obtain ⟨rest, hgot⟩ := hreceived.returned a.fromChn hafrom.fromChn_lt
    have hgot := got_of_returned hrun (hmodes' a.fromChn)
      (hcomplete.from_aie_ch _ hafrom.fromChn_lt).1
    rw [getReps_length hgot, hcfg, hdecoded.rep_eq, hdecoded.frames_eq]
    rfl
  rw [last_repetition hreceived hdecoded hafrom hrep (hfits rfl) hlen (hcopied hafrom)]
  obtain ⟨more, hmore⟩ := hread a.fromChn
  rw [TestHarnessArgs.expected, ← hmore, slice_append_left]
  rw [hlen, ← Nat.succ_mul]
  exact Nat.mul_le_mul_right _ (by omega)

/-! ### Both modes -/

/-- Whatever the order in which its processes run: once the kernel has returned, the host finds in
the user's buffers what the graph makes of the user's data, and nothing else of the arguments has
changed. -/
theorem computed_of_complete (H : Harness) (t t' : Transaction) (args : List TestHarnessArgs)
    (s : HarnessState) (hB : 1 ≤ H.burst_len) (hB' : H.burst_len ≤ 128) (hposed : Posed H.p t args)
    (hinputs : t.handleInputs args = .ok t') (hlimit : t'.getMemoryUsage ≤ 2 ^ 30)
    (hbuffers : H.buffers = t'.buffers) (hrun : H.lts.Run H.init s) (hcomplete : H.Complete s) :
    ∃ t'', (t'.withResults (H.after s)).handleOutputs = .ok t''
      ∧ List.Forall₂ (Rewritten H.p.toSetup) args t''.args_rec
      ∧ Computed H.p H.graph t.mode t''.args_rec := by
  obtain ⟨hsetup, hdistinct, hbuffer, hperf⟩ := hposed
  cases hmode : t.mode with
  | FUNC_MODE =>
      exact computed_func hB hB'
        (funcToLayout_of_handleInputs hsetup hmode hdistinct hinputs hlimit)
        (funcFromLayout_of_handleInputs hsetup hmode hdistinct hbuffer hinputs hlimit)
        hdistinct hbuffer hbuffers hrun hcomplete
  | PERF_MODE =>
      obtain ⟨haddr, hsmall⟩ := hperf hmode
      exact computed_perf haddr (perfLayout_of_handleInputs haddr hsetup hmode hdistinct hinputs)
        hdistinct hbuffer hsmall hbuffers hrun hcomplete

end Harness

end AieTestHarness
