import AieTestHarness.Proof.FuncTransmit
import AieTestHarness.Proof.Harness

/-!
# The region in functional mode, towards the AIE

Seen from `load_memories` the region is the functional mode towards the AIE, whatever the other side
does. The triggers, the counters and the other side are stutters.
-/

namespace AieTestHarness

open Slices

def FeedProc.funcPc : FeedProc → FeedPc
  | .wait count => .wait count
  | .first => .wait 0
  | .func pc => pc
  | .perf _ _ | .last | .returned => .done

def FeedProc.Func (pc : FeedProc) : Prop := ∀ j i, pc ≠ .perf j i

section Feed

variable {p : Kernel} {ch : Channel} {buff : List Beat} {room : Bool} {x y : FeedState}
  {trig : Bool}

/-- A statement of `feed` in functional mode is one of the model without triggers, or a stutter. -/
theorem FeedState.func_of_next (hmode : ch.mode = .FUNC_MODE) (hfunc : x.pc.Func)
    (h : next p ch buff room x = some (y, trig)) :
    y.pc.Func ∧ ((y.pc.funcPc = x.pc.funcPc ∧ y.memStr = x.memStr ∧ beatsOf y.acts = beatsOf x.acts)
      ∨ ∃ out, AieTestHarness.feedStep p ch room x.memStr x.pc.funcPc
          = some (y.pc.funcPc, y.memStr, out) ∧ beatsOf y.acts = beatsOf x.acts ++ out) := by
  obtain ⟨pc, memStr, acts⟩ := x
  cases pc with
  | wait count =>
      cases count with
      | zero =>
          obtain ⟨rfl, -⟩ := Prod.mk.inj (Option.some.inj h)
          exact ⟨fun j i => FeedProc.noConfusion, Or.inl ⟨rfl, rfl, rfl⟩⟩
      | succ count =>
          obtain ⟨rfl, -⟩ := Prod.mk.inj (Option.some.inj h)
          exact ⟨fun j i => FeedProc.noConfusion, Or.inr ⟨[], rfl, (List.append_nil _).symm⟩⟩
  | first =>
      obtain ⟨rfl, -⟩ := Prod.mk.inj (Option.some.inj h)
      have hbranch : branch ch = .func (.head 0) := by rw [branch, hmode]
      refine ⟨fun j i => ?_, Or.inr ⟨[], ?_, ?_⟩⟩
      · change branch ch ≠ _
        rw [hbranch]
        exact FeedProc.noConfusion
      · change some (FeedPc.head 0, memStr, []) = some ((branch ch).funcPc, memStr, [])
        rw [hbranch]
        rfl
      · change beatsOf (acts ++ [.trigger]) = _
        rw [beatsOf_append, beatsOf_trigger]
  | func pc =>
      by_cases hpc : pc = .done
      · subst hpc
        obtain ⟨rfl, -⟩ := Prod.mk.inj (Option.some.inj h)
        exact ⟨fun j i => FeedProc.noConfusion, Or.inl ⟨rfl, rfl, rfl⟩⟩
      · rw [next_func hpc, Option.map_eq_some_iff] at h
        obtain ⟨⟨pc', memStr', out⟩, hstep, heq⟩ := h
        obtain ⟨rfl, -⟩ := Prod.mk.inj heq
        refine ⟨fun j i => FeedProc.noConfusion, Or.inr ⟨out, hstep, ?_⟩⟩
        rw [beatsOf_append, beatsOf_map_beat]
  | perf j i => exact absurd rfl (hfunc j i)
  | last =>
      obtain ⟨rfl, -⟩ := Prod.mk.inj (Option.some.inj h)
      refine ⟨fun j i => FeedProc.noConfusion, Or.inl ⟨rfl, rfl, ?_⟩⟩
      change beatsOf (acts ++ [.trigger]) = _
      rw [beatsOf_append, beatsOf_trigger, List.append_nil]
  | returned => cases h

end Feed

namespace Harness

variable {H : Harness} {s s' : HarnessState}

def Func (H : Harness) : Prop := ∀ c, (H.chs.to_aie_ch c).mode = .FUNC_MODE

theorem Func.from_mode (h : H.Func) (c : Nat) : (H.chs.from_aie_ch c).mode = .FUNC_MODE := h c

def toTx (s : HarnessState) : TxState where
  load := s.load
  io := txView s
  feed c := (s.to_aie_ch c).proc.pc.funcPc
  axi := s.to_aie_strm
  sent c := beatsOf (s.to_aie_ch c).proc.acts

/-- The step of the other model a label stands for; the rest are stutters. -/
def txLabel : HarnessEvent → TxLabel
  | .feed c => .feed c
  | .take c => .aie c
  | _ => .load

def AllFunc (s : HarnessState) : Prop := ∀ c, (s.to_aie_ch c).proc.pc.Func

theorem toTx_update {c : Nat} (ch : Counted FeedState) (strm : List Beat) :
    toTx { s with
        to_aie_ch := Function.update s.to_aie_ch c ch
        to_aie_strm := Function.update s.to_aie_strm c strm }
      = { toTx s with
          io := { (toTx s).io with
            to_aie_strm := Function.update (toTx s).io.to_aie_strm c ch.proc.memStr }
          feed := Function.update (toTx s).feed c ch.proc.pc.funcPc
          axi := Function.update (toTx s).axi c strm
          sent := Function.update (toTx s).sent c (beatsOf ch.proc.acts) } := by
  unfold toTx txView
  congr 1
  · congr 1
    funext c'
    by_cases hc : c' = c
    · subst hc
      simp only [Function.update_self]
    · simp only [Function.update_of_ne hc]
  · funext c'
    by_cases hc : c' = c
    · subst hc
      simp only [Function.update_self]
    · simp only [Function.update_of_ne hc]
  · funext c'
    by_cases hc : c' = c
    · subst hc
      simp only [Function.update_self]
    · simp only [Function.update_of_ne hc]

theorem toTx_congr (hload : s'.load = s.load) (hreads : s'.reads = s.reads)
    (hlost : s'.lost = s.lost)
    (hch : ∀ c, (s'.to_aie_ch c).proc = (s.to_aie_ch c).proc)
    (hstrm : s'.to_aie_strm = s.to_aie_strm) :
    toTx s' = toTx s := by
  unfold toTx txView
  simp only [hload, hreads, hlost, hch, hstrm]

theorem tx_of_step (hfunc : H.Func) (hall : AllFunc s) {l : HarnessEvent}
    (hstep : H.lts.step l s = some s') :
    AllFunc s' ∧ (toTx s' = toTx s
      ∨ H.transmit.lts.step (txLabel l) (toTx s) = some (toTx s')
      ∧ (txLabel l = .load → l = .load)) := by
  cases l with
  | load =>
      obtain ⟨load, io, hload, rfl⟩ := load_eq_some hstep
      refine ⟨hall, Or.inr ⟨?_, fun _ => rfl⟩⟩
      change (H.loadMemories.step s.load (txView s)).map _ = _
      rw [hload]
      rfl
  | feed c =>
      obtain ⟨hc, ch, hch, rfl⟩ := feed_eq_some hstep
      obtain ⟨proc, trig, hnext, rfl⟩ := counted_step_some hch
      have hdrop := (FeedState.step_adds hnext).beatsOf_eq
      obtain ⟨hproc, hcases⟩ := FeedState.func_of_next (hfunc c) (hall c) hnext
      refine ⟨fun c' => ?_, ?_⟩
      · by_cases hc' : c' = c
        · subst hc'
          simp only [Function.update_self]
          exact hproc
        · simp only [Function.update_of_ne hc']
          exact hall c'
      rw [toTx_update]
      rcases hcases with ⟨hpc, hmem, hbeats⟩ | ⟨out, hfeed, hbeats⟩
      · left
        have hnone : beatsOf (proc.acts.drop (s.to_aie_ch c).proc.acts.length) = [] :=
          List.append_cancel_left (hdrop.symm.trans (hbeats.trans (List.append_nil _).symm))
        simp only [hpc, hmem, hbeats, hnone, List.append_nil]
        unfold toTx txView
        simp only [Function.update_eq_self]
      · right
        refine ⟨?_, TxLabel.noConfusion⟩
        have hout : beatsOf (proc.acts.drop (s.to_aie_ch c).proc.acts.length) = out :=
          List.append_cancel_left (hdrop.symm.trans hbeats)
        change (if c < H.p.num_channels then H.transmit.feedChannel (toTx s) c else none) = _
        rw [if_pos hc, Transmit.feedChannel]
        have hfeed' : AieTestHarness.feedStep H.transmit.p (H.transmit.chs.to_aie_ch c)
            (((toTx s).axi c).length < H.transmit.axiDepth c) ((toTx s).io.to_aie_strm c)
            ((toTx s).feed c) = some (proc.pc.funcPc, proc.memStr, out) := hfeed
        rw [hfeed', hout]
        simp only [Option.map_some, hbeats]
        rfl
  | countTo c =>
      obtain ⟨hc, ch, hch, rfl⟩ := countTo_eq_some hstep
      have hproc : ∀ c', (Function.update s.to_aie_ch c ch c').proc = (s.to_aie_ch c').proc := by
        intro c'
        by_cases hc' : c' = c
        · subst hc'
          rw [Function.update_self]
          exact proc_of_count hch
        · rw [Function.update_of_ne hc']
      refine ⟨fun c' => ?_, Or.inl (toTx_congr rfl rfl rfl hproc rfl)⟩
      simp only [hproc]
      exact hall c'
  | take c =>
      obtain ⟨hc, b, rest, hstrm, rfl⟩ := take_eq_some hstep
      refine ⟨hall, Or.inr ⟨?_, TxLabel.noConfusion⟩⟩
      have haxi : (toTx s).axi c = b :: rest := hstrm
      simp only [txLabel, Transmit.lts, haxi]
      rfl
  | give c =>
      obtain ⟨-, b, -, -, rfl⟩ := give_eq_some hstep
      exact ⟨hall, Or.inl rfl⟩
  | get c =>
      obtain ⟨-, ch, room, -, -, rfl⟩ := get_eq_some hstep
      exact ⟨hall, Or.inl rfl⟩
  | countFrom c =>
      obtain ⟨-, ch, -, rfl⟩ := countFrom_eq_some hstep
      exact ⟨hall, Or.inl rfl⟩
  | store =>
      obtain ⟨store, io, -, rfl⟩ := store_eq_some hstep
      exact ⟨hall, Or.inl rfl⟩

end Harness

end AieTestHarness
