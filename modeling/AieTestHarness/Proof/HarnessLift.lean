import AieTestHarness.Proof.HarnessFunc
import AieTestHarness.Proof.ReceiveProgress
import AieTestHarness.Proof.TransmitProgress

/-!
# What the region can do in functional mode

The two views of the region in functional mode hide the triggers. Whatever step one of them can
take, the region can take too, at most after a step that is not seen: writing a trigger, which the
stream to the counter always has room for.
-/

namespace AieTestHarness

open Slices

def FeedProc.hidden : FeedProc → Nat
  | .wait 0 => 1
  | _ => 0

def GetProc.hidden : GetProc → Nat
  | .funcMark _ => 1
  | _ => 0

section Channel

variable {p : Kernel} {ch : Channel} {buff : List Beat} {room : Bool}

variable (buff) in
theorem FeedState.exists_next (hmode : ch.mode = .FUNC_MODE) {x : FeedState}
    {r : FeedPc × List MemWord × List Beat}
    (h : AieTestHarness.feedStep p ch room x.memStr x.pc.funcPc = some r) :
    ∃ y trig, next p ch buff room x = some (y, trig)
      ∧ (y.pc.funcPc = r.1 ∨ y.pc.hidden < x.pc.hidden) := by
  obtain ⟨pc, memStr, acts⟩ := x
  cases pc with
  | wait count =>
      cases count with
      | zero => exact ⟨_, _, rfl, Or.inr Nat.one_pos⟩
      | succ count =>
          cases h
          exact ⟨_, _, rfl, Or.inl rfl⟩
  | first =>
      cases h
      refine ⟨_, _, rfl, Or.inl ?_⟩
      change (branch ch).funcPc = .head 0
      rw [branch, hmode]
      rfl
  | func pc =>
      have hpc : pc ≠ .done := by
        rintro rfl
        cases h
      change AieTestHarness.feedStep p ch room memStr pc = some r at h
      refine ⟨_, _, by rw [next_func hpc, h]; rfl, Or.inl rfl⟩
  | perf j i => cases h
  | last => cases h
  | returned => cases h

theorem GetState.exists_next (hmode : ch.mode = .FUNC_MODE) {x : GetState}
    {r : GetPc × List Beat × List MemWord} (h : getStep p ch room x.strm x.pc.funcPc = some r) :
    ∃ y trig, next p ch room x = some (y, trig)
      ∧ (y.pc.funcPc = r.1 ∨ y.pc.hidden < x.pc.hidden) := by
  obtain ⟨pc, strm, buff, acts⟩ := x
  cases pc with
  | wait count =>
      cases count with
      | zero =>
          cases h
          refine ⟨_, _, rfl, Or.inl ?_⟩
          change (branch ch).funcPc = .head 0
          rw [branch, hmode]
          rfl
      | succ count =>
          cases h
          exact ⟨_, _, rfl, Or.inl rfl⟩
  | func pc firstData =>
      have hpc : pc ≠ .done := by
        rintro rfl
        cases h
      change getStep p ch room strm pc = some r at h
      refine ⟨_, _, by rw [next_func hpc, h]; rfl, Or.inl ?_⟩
      change (afterRead firstData strm r.2.1 r.1).funcPc = r.1
      unfold afterRead
      split
      · rfl
      · rfl
  | funcMark pc => exact ⟨_, _, rfl, Or.inr Nat.one_pos⟩
  | perf j i firstData => cases h
  | perfMark j i => cases h
  | after firstData => cases h
  | last => cases h
  | returned => cases h

theorem getStep_of_take {bs strm strm' : List Beat} {pc pc' : GetPc} {out : List MemWord} {n : Nat}
    (hok : pc.Ok p ch bs) (h : getStep p ch room (strm.take n) pc = some (pc', strm', out)) :
    ∃ strm₁, getStep p ch room strm pc = some (pc', strm₁, out) := by
  rcases (reads_of_getStep hok.inRange h).2 with ⟨-, -, hall⟩ | ⟨tmp, htake, -, -, hall⟩
  · exact ⟨strm, hall strm⟩
  · cases strm with
    | nil =>
        rw [List.take_nil] at htake
        cases htake
    | cons b strm =>
        cases n with
        | zero => cases htake
        | succ n =>
            obtain ⟨rfl, -⟩ := List.cons.inj htake
            exact ⟨strm, hall strm⟩

end Channel

namespace Harness

variable {H : Harness} {s s' : HarnessState} {c : Nat}

/-- No more than two triggers are ever written. -/
theorem to_trigger_lt (hrun : H.lts.Run H.init s) (c : Nat) :
    (s.to_aie_ch c).trigger_strm < Source.triggerDepth := by
  have hok := feed_counted (loadStream_run hrun c)
  have hkept := hok.kept
  have hle := hok.triggers_le
  unfold Source.triggerDepth
  omega

theorem from_trigger_lt (hrun : H.lts.Run H.init s) (c : Nat) :
    (s.from_aie_ch c).trigger_strm < Source.triggerDepth := by
  have hok := get_counted (storeStream_run hrun c)
  have hkept := hok.kept
  have hle := hok.triggers_le
  unfold Source.triggerDepth
  omega

/-! ### Steps there are -/

theorem exists_feed (hrun : H.lts.Run H.init s) (hc : c < H.p.num_channels) {y : FeedState}
    {trig : Bool}
    (h : FeedState.next H.p (H.chs.to_aie_ch c) (H.buff c) ((s.to_aie_strm c).length < H.to_depth c)
      (s.to_aie_ch c).proc = some (y, trig)) :
    ∃ s', H.lts.step (.feed c) s = some s' ∧ (s'.to_aie_ch c).proc = y := by
  obtain ⟨ch, hch, rfl⟩ := counted_step_of (P := FeedState.feed H.p (H.chs.to_aie_ch c) (H.buff c))
    (l := .step ((s.to_aie_strm c).length < H.to_depth c)) h (to_trigger_lt hrun c)
  refine ⟨_, (if_pos hc).trans (congrArg (Option.map _) hch), ?_⟩
  change (Function.update s.to_aie_ch c ch c).proc = ch.proc
  rw [Function.update_self]

theorem exists_get (hrun : H.lts.Run H.init s) (hc : c < H.p.num_channels) {y : GetState}
    {trig : Bool}
    (h : GetState.next H.p (H.chs.from_aie_ch c) ((s.io.from_aie_strm c).length < H.burst_len * 2)
      (s.from_aie_ch c).proc = some (y, trig)) :
    ∃ s', H.lts.step (.get c) s = some s' ∧ (s'.from_aie_ch c).proc = y := by
  obtain ⟨ch, hch, rfl⟩ := counted_step_of (P := GetState.get H.p (H.chs.from_aie_ch c))
    (l := .step ((s.io.from_aie_strm c).length < H.burst_len * 2)) h (from_trigger_lt hrun c)
  refine ⟨_, (if_pos hc).trans (congrArg (Option.map _) hch), ?_⟩
  change (Function.update s.from_aie_ch c ch c).proc = ch.proc
  rw [Function.update_self]

theorem exists_take {b : Beat} {rest : List Beat} (hc : c < H.p.num_channels)
    (hstrm : s.to_aie_strm c = b :: rest) : ∃ s', H.lts.step (.take c) s = some s' := by
  have hstep : H.lts.step (.take c) s = takeStep s c := if_pos hc
  rw [hstep, takeStep, hstrm]
  exact ⟨_, rfl⟩

theorem exists_give {b : Beat} (hc : c < H.p.num_channels)
    (hb : (H.graph.out s.taken c)[s.given c]? = some b)
    (hroom : (s.from_aie_ch c).proc.strm.length < H.from_depth c) :
    ∃ s', H.lts.step (.give c) s = some s' := by
  have hstep : H.lts.step (.give c) s = H.giveStep s c := if_pos hc
  rw [hstep, giveStep, hb]
  exact ⟨_, if_pos hroom⟩

/-! ### Towards the AIE -/

theorem allFunc_of_run (hfunc : H.Func) (hrun : H.lts.Run H.init s) : AllFunc s :=
  hrun.invariant (fun _ _ _ h _ hstep => (tx_of_step hfunc h hstep).1) fun _ _ _ =>
    FeedProc.noConfusion

theorem strm_of_ge (hrun : H.lts.Run H.init s) (hc : H.p.num_channels ≤ c) :
    s.to_aie_strm c = [] := by
  refine hrun.invariant (I := fun s => s.to_aie_strm c = []) (fun l s s' hI _ hstep => ?_) rfl
  cases l with
  | load =>
      obtain ⟨load, io, -, rfl⟩ := load_eq_some hstep
      exact hI
  | feed c' =>
      obtain ⟨hc', ch, -, rfl⟩ := feed_eq_some hstep
      exact (Function.update_of_ne (by omega) ..).trans hI
  | countTo c' =>
      obtain ⟨-, ch, -, rfl⟩ := countTo_eq_some hstep
      exact hI
  | take c' =>
      obtain ⟨hc', b, rest, -, rfl⟩ := take_eq_some hstep
      exact (Function.update_of_ne (by omega) ..).trans hI
  | give c' =>
      obtain ⟨-, b, -, -, rfl⟩ := give_eq_some hstep
      exact hI
  | get c' =>
      obtain ⟨-, ch, room, -, -, rfl⟩ := get_eq_some hstep
      exact hI
  | countFrom c' =>
      obtain ⟨-, ch, -, rfl⟩ := countFrom_eq_some hstep
      exact hI
  | store =>
      obtain ⟨store, io, -, rfl⟩ := store_eq_some hstep
      exact hI

def txHidden : TxLabel → HarnessState → Nat
  | .feed c, s => (s.to_aie_ch c).proc.pc.hidden
  | _, _ => 0

/-- What the functional mode towards the AIE can do, the region can do. -/
theorem lifts_transmit (hfunc : H.Func) (hfits : H.transmit.Fits) :
    Lts.Lifts H.lts H.transmit.lts toTx (H.lts.Run H.init) (fun _ _ => True) (fun _ _ => True) := by
  refine Lts.Lifts.of_enabled txHidden fun k s t hrun _ hstep => ?_
  have hall := allFunc_of_run hfunc hrun
  have hinv := Transmit.inv_of_steps hfits (Transmit.inv_init _) (toTx_run hfunc hrun)
  cases k with
  | load =>
      obtain ⟨⟨load, io⟩, hload, rfl⟩ := Option.map_eq_some_iff.mp hstep
      have hH : H.lts.step .load s = some { s with
          load
          reads := io.reads
          lost := io.lost
          to_aie_ch := fun c => withMemStr (s.to_aie_ch c) (io.to_aie_strm c) } :=
        congrArg (Option.map _) hload
      exact ⟨.load, _, trivial, hH, .tail .load hrun trivial hH, Or.inl rfl⟩
  | feed c =>
      obtain ⟨hc, hchannel⟩ := guard_eq_some hstep
      obtain ⟨r, hfeed, -⟩ := Option.map_eq_some_iff.mp hchannel
      obtain ⟨y, trig, hnext, hy⟩ := FeedState.exists_next (H.buff c) (hfunc c) hfeed
      obtain ⟨s', hs', hproc⟩ := exists_feed hrun hc hnext
      refine ⟨.feed c, s', trivial, hs', .tail _ hrun trivial hs', ?_⟩
      rcases (tx_of_step hfunc hall hs').2 with hsame | ⟨hseen, -⟩
      · refine Or.inr ⟨hsame, ?_⟩
        rcases hy with hpc | hlt
        · -- a statement that is seen changes where `feed` stands
          have hrank := rank_lt_of_feedStep (hinv.flow c hc).ok.inRange hfeed
          have hstays : y.pc.funcPc = (s.to_aie_ch c).proc.pc.funcPc := by
            rw [← hproc]
            exact congrFun (congrArg TxState.feed hsame) c
          rw [← hpc, hstays] at hrank
          exact absurd hrank (Nat.lt_irrefl _)
        · change (s'.to_aie_ch c).proc.pc.hidden < _
          rw [hproc]
          exact hlt
      · exact Or.inl (Option.some.inj (hseen.symm.trans hstep))
  | aie c =>
      by_cases hc : c < H.p.num_channels
      · cases hstrm : s.to_aie_strm c with
        | nil =>
            have haxi : (toTx s).axi c = [] := hstrm
            simp only [Transmit.lts, haxi] at hstep
            cases hstep
        | cons b rest =>
            obtain ⟨s', hs'⟩ := exists_take hc hstrm
            refine ⟨.take c, s', trivial, hs', .tail _ hrun trivial hs', Or.inl ?_⟩
            rcases (tx_of_step hfunc hall hs').2 with hsame | ⟨hseen, -⟩
            · obtain ⟨-, b', rest', hstrm', rfl⟩ := take_eq_some hs'
              have haxi : Function.update s.to_aie_strm c rest' c = s.to_aie_strm c :=
                congrFun (congrArg TxState.axi hsame) c
              rw [Function.update_self, hstrm'] at haxi
              exact absurd haxi List.ne_cons_self
            · exact Option.some.inj (hseen.symm.trans hstep)
      · have haxi : (toTx s).axi c = [] := strm_of_ge hrun (Nat.le_of_not_lt hc)
        simp only [Transmit.lts, haxi] at hstep
        cases hstep

/-! ### From the AIE -/

variable {inputs : Nat → List Beat}

def rxHidden : RxLabel → HarnessState → Nat
  | .get c, s => (s.from_aie_ch c).proc.pc.hidden
  | _, _ => 0

/-- What the functional mode from the AIE can do, the region can do, once the graph has taken all
its inputs. -/
theorem lifts_receive (hfunc : H.Func) :
    Lts.Lifts H.lts (H.receive (H.delivered inputs)).lts (H.toRx inputs)
      (fun s => H.lts.Run H.init s ∧ s.taken = inputs) (fun _ _ => True) (fun _ _ => True) := by
  refine Lts.Lifts.of_enabled rxHidden ?_
  rintro k s t ⟨hrun, rfl⟩ - hstep
  obtain ⟨-, hview⟩ := toRx_run hfunc hrun fun c => List.prefix_refl (s.taken c)
  cases k with
  | store =>
      obtain ⟨⟨store, io⟩, hstore, rfl⟩ := Option.map_eq_some_iff.mp hstep
      have hH : H.lts.step .store s = some { s with store, io } := congrArg (Option.map _) hstore
      exact ⟨.store, _, trivial, hH, ⟨.tail .store hrun trivial hH, rfl⟩, Or.inl rfl⟩
  | get c =>
      obtain ⟨hc, hchannel⟩ := guard_eq_some hstep
      obtain ⟨r, hget, -⟩ := Option.map_eq_some_iff.mp hchannel
      obtain ⟨fifo, hflow⟩ := (hview c).flow
      obtain ⟨strm₁, hget'⟩ := getStep_of_take hflow.ok hget
      obtain ⟨y, trig, hnext, hy⟩ := GetState.exists_next (hfunc.from_mode c) hget'
      obtain ⟨s', hs', hproc⟩ := exists_get hrun hc hnext
      have htaken : s'.taken = s.taken := by
        obtain ⟨-, ch, room, -, -, rfl⟩ := get_eq_some hs'
        rfl
      refine ⟨.get c, s', trivial, hs', ⟨.tail _ hrun trivial hs', htaken⟩, ?_⟩
      rcases (rx_of_get hfunc hview hs').2 with hsame | hseen
      · refine Or.inr ⟨hsame, ?_⟩
        rcases hy with hpc | hlt
        · have hrank := rank_lt_of_getStep hflow.ok.inRange hget
          have hstays : y.pc.funcPc = (s.from_aie_ch c).proc.pc.funcPc := by
            rw [← hproc]
            exact congrFun (congrArg RxState.get hsame) c
          rw [← show y.pc.funcPc = r.1 from hpc, hstays] at hrank
          exact absurd hrank (Nat.lt_irrefl _)
        · change (s'.from_aie_ch c).proc.pc.hidden < _
          rw [hproc]
          exact hlt
      · exact Or.inl (Option.some.inj (hseen.symm.trans hstep))
  | aie c =>
      obtain ⟨hc, hdeliver⟩ := guard_eq_some hstep
      cases htodo : (H.delivered s.taken c).drop (s.given c) with
      | nil =>
          have htodo' : (H.toRx s.taken s).todo c = [] := htodo
          simp only [Receive.deliver, htodo'] at hdeliver
          cases hdeliver
      | cons b rest =>
          have htodo' : (H.toRx s.taken s).todo c = b :: rest := htodo
          simp only [Receive.deliver, htodo'] at hdeliver
          obtain ⟨haxi, -⟩ := guard_eq_some hdeliver
          -- `get` is to read the word, so nothing on the stream is beyond what it is to read
          have hlt : s.given c < (H.delivered s.taken c).length := by
            by_contra hge
            rw [List.drop_of_length_le (Nat.le_of_not_lt hge)] at htodo
            cases htodo
          have hb : (H.graph.out s.taken c)[s.given c]? = some b := by
            have hget : ((H.delivered s.taken c).drop (s.given c))[0]? =
                (H.delivered s.taken c)[s.given c + 0]? := List.getElem?_drop
            rw [htodo, Nat.add_zero] at hget
            obtain ⟨more, hmore⟩ : H.delivered s.taken c <+: H.graph.out s.taken c :=
              List.take_prefix ..
            rw [← hmore, List.getElem?_append_left hlt]
            exact hget.symm
          have hframes : s.given c < (H.chs.from_aie_ch c).numFrames :=
            hlt.trans_le (List.length_take_le _ _)
          have hgiven := (hview c).given_eq
          have hwhole : (H.toRx s.taken s).axi c = (s.from_aie_ch c).proc.strm :=
            List.take_of_length_le (by omega)
          obtain ⟨s', hs'⟩ := exists_give hc hb (by rw [← hwhole]; exact haxi)
          have htaken : s'.taken = s.taken := by
            obtain ⟨-, b, -, -, rfl⟩ := give_eq_some hs'
            rfl
          refine ⟨.give c, s', trivial, hs', ⟨.tail _ hrun trivial hs', htaken⟩, Or.inl ?_⟩
          rcases (rx_of_give (fun c => List.prefix_refl _) hview hs').2 with hsame | hseen
          · have hdrop : (H.delivered s.taken c).drop (s'.given c) = b :: rest := by
              rw [← htodo]
              exact congrFun (congrArg RxState.todo hsame) c
            have hcount : s'.given c = s.given c + 1 := by
              obtain ⟨-, b, -, -, rfl⟩ := give_eq_some hs'
              change Function.update s.given c (s.given c + 1) c = _
              rw [Function.update_self]
            rw [hcount, ← List.drop_drop, htodo] at hdrop
            exact absurd hdrop List.ne_cons_self
          · exact Option.some.inj (hseen.symm.trans hstep)

end Harness

end AieTestHarness
