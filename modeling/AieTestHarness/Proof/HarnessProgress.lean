import AieTestHarness.Proof.Card
import AieTestHarness.Proof.HarnessLift

/-!
# The kernel always gets through

With bursts of fewer than 128 words no memory loop can be caught in its last loop, and every
reachable state of the region has a continuation in which all processes return, if only the graph
puts out what the arguments ask for. First everything is sent and taken, then everything is
delivered and stored, then the counters see their triggers; one channel is brought to its end after
the other.
-/

namespace AieTestHarness

open Slices

/-! ### A channel outside the functional branch -/

section Feed

variable {p : Kernel} {ch : Channel} {buff : List Beat} {room trig : Bool} {x y : FeedState}

/-- `feed` does not go through the branch of the functional mode any more. -/
def FeedProc.Free (ch : Channel) : FeedProc → Prop
  | .wait _ | .first => ch.mode = .PERF_MODE
  | .func pc => pc = .done
  | _ => True

theorem FeedState.free_of_next (hfree : x.pc.Free ch) (h : next p ch buff room x = some (y, trig)) :
    y.pc.Free ch := by
  obtain ⟨pc, memStr, acts⟩ := x
  cases pc with
  | wait count => cases count <;> cases h <;> exact hfree
  | first =>
      cases h
      change (branch ch).Free ch
      unfold branch
      rw [show ch.mode = .PERF_MODE from hfree]
      trivial
  | func pc =>
      obtain rfl : pc = .done := hfree
      cases h
      trivial
  | perf j i =>
      cases j with
      | zero =>
          cases h
          trivial
      | succ j =>
          cases i with
          | zero =>
              cases h
              trivial
          | succ i =>
              simp only [next] at h
              split at h <;> cases h
              trivial
  | last =>
      cases h
      trivial
  | returned => cases h

theorem FeedState.ne_returned_of_next (h : next p ch buff room x = some (y, trig)) :
    x.pc ≠ .returned := by
  intro hpc
  simp only [next, hpc] at h
  cases h

variable (p buff) in
theorem FeedState.enabled_of_free (hfree : x.pc.Free ch) :
    x.pc = .returned ∨ ∃ y trig, next p ch buff true x = some (y, trig) := by
  obtain ⟨pc, memStr, acts⟩ := x
  cases pc with
  | wait count =>
      cases count with
      | zero => exact Or.inr ⟨_, _, rfl⟩
      | succ count => exact Or.inr ⟨_, _, rfl⟩
  | first => exact Or.inr ⟨_, _, rfl⟩
  | func pc =>
      obtain rfl : pc = .done := hfree
      exact Or.inr ⟨_, _, rfl⟩
  | perf j i =>
      cases j with
      | zero => exact Or.inr ⟨_, _, rfl⟩
      | succ j =>
          cases i with
          | zero => exact Or.inr ⟨_, _, rfl⟩
          | succ i => exact Or.inr ⟨_, _, rfl⟩
  | last => exact Or.inr ⟨_, _, rfl⟩
  | returned => exact Or.inl rfl

theorem FeedProc.free_of_done {pc : FeedProc} (hfunc : pc.Func) (hdone : pc.funcPc = .done) :
    pc.Free ch := by
  cases pc with
  | wait count => cases hdone
  | first => cases hdone
  | func pc => exact hdone
  | perf j i => exact absurd rfl (hfunc j i)
  | last => trivial
  | returned => trivial

end Feed

section Get

variable {p : Kernel} {ch : Channel} {room trig : Bool} {x y : GetState}

def GetProc.Free (ch : Channel) : GetProc → Prop
  | .wait _ | .perf _ _ _ | .perfMark _ _ => ch.mode = .PERF_MODE
  | .func pc _ | .funcMark pc => pc = .done
  | _ => True

theorem GetState.free_of_next (hfree : x.pc.Free ch) (h : next p ch room x = some (y, trig)) :
    y.pc.Free ch := by
  obtain ⟨pc, strm, buff, acts⟩ := x
  cases pc with
  | wait count =>
      cases count with
      | zero =>
          cases h
          change (branch ch).Free ch
          unfold branch
          rw [show ch.mode = .PERF_MODE from hfree]
          exact hfree
      | succ count =>
          cases h
          exact hfree
  | func pc firstData =>
      obtain rfl : pc = .done := hfree
      cases h
      trivial
  | funcMark pc =>
      cases h
      exact hfree
  | perf j i firstData =>
      cases j with
      | zero =>
          cases h
          trivial
      | succ j =>
          cases i with
          | zero =>
              cases h
              exact hfree
          | succ i =>
              cases strm with
              | nil => cases h
              | cons tmp strm =>
                  cases h
                  cases firstData <;> exact hfree
  | perfMark j i =>
      cases h
      exact hfree
  | after firstData => cases firstData <;> cases h <;> trivial
  | last =>
      cases h
      trivial
  | returned => cases h

theorem GetState.ne_returned_of_next (h : next p ch room x = some (y, trig)) :
    x.pc ≠ .returned := by
  intro hpc
  simp only [next, hpc] at h
  cases h

variable (p room) in
/-- `get` has returned, can go on, or waits for a stream word it is to read. -/
theorem GetState.enabled_of_free (hfree : x.pc.Free ch) :
    x.pc = .returned ∨ (∃ y trig, next p ch room x = some (y, trig))
      ∨ x.strm = [] ∧ ∃ j i firstData, x.pc = .perf (j + 1) (i + 1) firstData := by
  obtain ⟨pc, strm, buff, acts⟩ := x
  cases pc with
  | wait count =>
      cases count with
      | zero => exact Or.inr (Or.inl ⟨_, _, rfl⟩)
      | succ count => exact Or.inr (Or.inl ⟨_, _, rfl⟩)
  | func pc firstData =>
      obtain rfl : pc = .done := hfree
      exact Or.inr (Or.inl ⟨_, _, rfl⟩)
  | funcMark pc => exact Or.inr (Or.inl ⟨_, _, rfl⟩)
  | perf j i firstData =>
      cases j with
      | zero => exact Or.inr (Or.inl ⟨_, _, rfl⟩)
      | succ j =>
          cases i with
          | zero => exact Or.inr (Or.inl ⟨_, _, rfl⟩)
          | succ i =>
              cases strm with
              | nil => exact Or.inr (Or.inr ⟨rfl, j, i, firstData, rfl⟩)
              | cons tmp strm => exact Or.inr (Or.inl ⟨_, _, rfl⟩)
  | perfMark j i => exact Or.inr (Or.inl ⟨_, _, rfl⟩)
  | after firstData =>
      cases firstData with
      | true => exact Or.inr (Or.inl ⟨_, _, rfl⟩)
      | false => exact Or.inr (Or.inl ⟨_, _, rfl⟩)
  | last => exact Or.inr (Or.inl ⟨_, _, rfl⟩)
  | returned => exact Or.inl rfl

theorem GetProc.free_of_done {pc : GetProc} (hfunc : pc.Func) (hdone : pc.funcPc = .done) :
    pc.Free ch := by
  cases pc with
  | wait count => cases hdone
  | func pc firstData => exact hdone
  | funcMark pc => exact hdone
  | perf j i firstData => exact hfunc.elim
  | perfMark j i => exact hfunc.elim
  | after firstData => trivial
  | last => trivial
  | returned => trivial

/-- In performance mode `get` waits for no stream word beyond those it is to read. -/
theorem PerfGot.reads_lt {p : Platform} {uram : List Beat} (hI : PerfGot p ch uram x) {j i : Nat}
    {firstData : Bool} (hpc : x.pc = .perf (j + 1) (i + 1) firstData) :
    (beatsOf x.acts).length < ch.numRep * ch.numFrames := by
  by_contra hge
  obtain ⟨buff', hreps⟩ := getReps_returns p ch uram (beatsOf x.acts) (Nat.le_of_not_lt hge)
  have hrest := hI.buff_eq []
  rw [hpc, List.append_nil, getPerf, hreps] at hrest
  cases hrest

end Get

theorem cnt_of_run {σ ι : Type} {P : Source σ ι} {x y : Counted σ} (hrun : P.counted.Run x y)
    (h : x.cnt.returned = true) : y.cnt.returned = true := by
  refine hrun.invariant (I := fun x => x.cnt.returned = true) (fun l x y hI _ hstep => ?_) h
  cases l with
  | none =>
      have hnot := (counted_step_none hstep).1
      rw [hI] at hnot
      cases hnot
  | some l =>
      obtain ⟨proc, trig, -, rfl⟩ := counted_step_some hstep
      exact hI

/-- A memory loop that has returned makes no statement, and in performance mode it returns at
once. -/
theorem MemLoop.ne_done_of_step {σ : Type} {L : MemLoop σ} {m m' : MemProc} {x x' : σ}
    (h : L.step m x = some (m', x')) : m.pc ≠ .done := by
  intro hpc
  simp only [MemLoop.step, hpc] at h
  cases h

theorem MemLoop.done_of_step {σ : Type} {L : MemLoop σ} {m m' : MemProc} {x x' : σ}
    (hmode : (L.chs 0).mode = .PERF_MODE) (hpc : m.pc = .start) (h : L.step m x = some (m', x')) :
    m'.pc = .done := by
  simp only [MemLoop.step, hpc, hmode] at h
  cases h
  rfl

namespace Harness

variable {H : Harness} {s s' : HarnessState} {c : Nat}

/-! ### What stays as it is -/

def FreeTo (H : Harness) (c : Nat) (s : HarnessState) : Prop :=
  (s.to_aie_ch c).proc.pc.Free (H.chs.to_aie_ch c)

def FreeFrom (H : Harness) (c : Nat) (s : HarnessState) : Prop :=
  (s.from_aie_ch c).proc.pc.Free (H.chs.from_aie_ch c)

theorem FreeTo.of_run (h : H.FreeTo c s) (hrun : H.lts.Run s s') : H.FreeTo c s' := by
  refine (loadStream_run hrun c).invariant
    (I := fun x => x.proc.pc.Free (H.chs.to_aie_ch c)) (fun l x y hI _ hstep => ?_) h
  cases l with
  | none =>
      rw [proc_of_count hstep]
      exact hI
  | some l =>
      obtain ⟨proc, trig, hnext, rfl⟩ := counted_step_some hstep
      cases l with
      | step room => exact FeedState.free_of_next hI hnext
      | mem data =>
          obtain ⟨rfl, -⟩ := Prod.mk.inj (Option.some.inj hnext)
          exact hI

theorem FreeFrom.of_run (h : H.FreeFrom c s) (hrun : H.lts.Run s s') : H.FreeFrom c s' := by
  refine (storeStream_run hrun c).invariant
    (I := fun x => x.proc.pc.Free (H.chs.from_aie_ch c)) (fun l x y hI _ hstep => ?_) h
  cases l with
  | none =>
      rw [proc_of_count hstep]
      exact hI
  | some l =>
      obtain ⟨proc, trig, hnext, rfl⟩ := counted_step_some hstep
      cases l with
      | step room => exact GetState.free_of_next hI hnext
      | aie b =>
          obtain ⟨rfl, -⟩ := Prod.mk.inj (Option.some.inj hnext)
          exact hI

/-- Channel `c` has sent all it had to send, and the graph has taken it. -/
structure Through (c : Nat) (s : HarnessState) : Prop where
  returned : (s.to_aie_ch c).proc.pc = .returned
  strm : s.to_aie_strm c = []

theorem Through.step (h : Through c s) {l : HarnessEvent} (hstep : H.lts.step l s = some s') :
    Through c s' := by
  obtain ⟨hreturned, hstrm⟩ := h
  cases l with
  | load =>
      obtain ⟨load, io, -, rfl⟩ := load_eq_some hstep
      exact ⟨hreturned, hstrm⟩
  | feed c' =>
      obtain ⟨-, ch, hch, rfl⟩ := feed_eq_some hstep
      by_cases hc : c = c'
      · subst hc
        obtain ⟨proc, trig, hnext, -⟩ := counted_step_some hch
        exact absurd hreturned (FeedState.ne_returned_of_next hnext)
      · exact ⟨by simp only [Function.update_of_ne hc]; exact hreturned,
          (Function.update_of_ne hc ..).trans hstrm⟩
  | countTo c' =>
      obtain ⟨-, ch, hch, rfl⟩ := countTo_eq_some hstep
      by_cases hc : c = c'
      · subst hc
        refine ⟨?_, hstrm⟩
        simp only [Function.update_self]
        rw [proc_of_count hch]
        exact hreturned
      · exact ⟨by simp only [Function.update_of_ne hc]; exact hreturned, hstrm⟩
  | take c' =>
      obtain ⟨-, b, rest, hcons, rfl⟩ := take_eq_some hstep
      have hc : c ≠ c' := by
        rintro rfl
        rw [hstrm] at hcons
        cases hcons
      exact ⟨hreturned, (Function.update_of_ne hc ..).trans hstrm⟩
  | give c' =>
      obtain ⟨-, b, -, -, rfl⟩ := give_eq_some hstep
      exact ⟨hreturned, hstrm⟩
  | get c' =>
      obtain ⟨-, ch, room, -, -, rfl⟩ := get_eq_some hstep
      exact ⟨hreturned, hstrm⟩
  | countFrom c' =>
      obtain ⟨-, ch, -, rfl⟩ := countFrom_eq_some hstep
      exact ⟨hreturned, hstrm⟩
  | store =>
      obtain ⟨store, io, -, rfl⟩ := store_eq_some hstep
      exact ⟨hreturned, hstrm⟩

theorem Through.of_run (h : Through c s) (hrun : H.lts.Run s s') : Through c s' :=
  hrun.invariant (fun _ _ _ h _ hstep => h.step hstep) h

theorem returned_of_run (h : (s.from_aie_ch c).proc.pc = .returned) (hrun : H.lts.Run s s') :
    (s'.from_aie_ch c).proc.pc = .returned := by
  refine (storeStream_run hrun c).invariant (I := fun x => x.proc.pc = .returned)
    (fun l x y hI _ hstep => ?_) h
  cases l with
  | none =>
      rw [proc_of_count hstep]
      exact hI
  | some l =>
      obtain ⟨proc, trig, hnext, rfl⟩ := counted_step_some hstep
      cases l with
      | step room => exact absurd hI (GetState.ne_returned_of_next hnext)
      | aie b =>
          obtain ⟨rfl, -⟩ := Prod.mk.inj (Option.some.inj hnext)
          exact hI

theorem memLoops_of_step {l : HarnessEvent} (hstep : H.lts.step l s = some s') :
    (s'.load = s.load ∨ ∃ x x', H.loadMemories.step s.load x = some (s'.load, x'))
      ∧ (s'.store = s.store ∨ ∃ x x', H.storeMemories.step s.store x = some (s'.store, x')) := by
  cases l with
  | load =>
      obtain ⟨load, io, hload, rfl⟩ := load_eq_some hstep
      exact ⟨Or.inr ⟨_, _, hload⟩, Or.inl rfl⟩
  | feed c =>
      obtain ⟨-, ch, -, rfl⟩ := feed_eq_some hstep
      exact ⟨Or.inl rfl, Or.inl rfl⟩
  | countTo c =>
      obtain ⟨-, ch, -, rfl⟩ := countTo_eq_some hstep
      exact ⟨Or.inl rfl, Or.inl rfl⟩
  | take c =>
      obtain ⟨-, b, rest, -, rfl⟩ := take_eq_some hstep
      exact ⟨Or.inl rfl, Or.inl rfl⟩
  | give c =>
      obtain ⟨-, b, -, -, rfl⟩ := give_eq_some hstep
      exact ⟨Or.inl rfl, Or.inl rfl⟩
  | get c =>
      obtain ⟨-, ch, room, -, -, rfl⟩ := get_eq_some hstep
      exact ⟨Or.inl rfl, Or.inl rfl⟩
  | countFrom c =>
      obtain ⟨-, ch, -, rfl⟩ := countFrom_eq_some hstep
      exact ⟨Or.inl rfl, Or.inl rfl⟩
  | store =>
      obtain ⟨store, io, hstore, rfl⟩ := store_eq_some hstep
      exact ⟨Or.inl rfl, Or.inr ⟨_, _, hstore⟩⟩

theorem load_done_of_run (h : s.load.pc = .done) (hrun : H.lts.Run s s') : s'.load.pc = .done := by
  refine hrun.invariant (I := fun s => s.load.pc = .done) (fun l s s' hI _ hstep => ?_) h
  rcases (memLoops_of_step hstep).1 with heq | ⟨x, x', hload⟩
  · rw [heq]
    exact hI
  · exact absurd hI (MemLoop.ne_done_of_step hload)

theorem store_done_of_run (h : s.store.pc = .done) (hrun : H.lts.Run s s') :
    s'.store.pc = .done := by
  refine hrun.invariant (I := fun s => s.store.pc = .done) (fun l s s' hI _ hstep => ?_) h
  rcases (memLoops_of_step hstep).2 with heq | ⟨x, x', hstore⟩
  · rw [heq]
    exact hI
  · exact absurd hI (MemLoop.ne_done_of_step hstore)

/-! ### One channel -/

/-- The graph takes all there is. The induction is on what there is. -/
theorem exists_emptied (hc : c < H.p.num_channels) (n : Nat) : ∀ s : HarnessState,
    (s.to_aie_strm c).length = n →
      ∃ s', H.lts.Run s s' ∧ s'.to_aie_strm c = [] ∧ s'.to_aie_ch = s.to_aie_ch := by
  induction n with
  | zero => exact fun s hn => ⟨s, .refl, List.length_eq_zero_iff.mp hn, rfl⟩
  | succ n ih =>
      intro s hn
      obtain ⟨b, rest, hcons⟩ := List.exists_cons_of_length_eq_add_one hn
      obtain ⟨s₁, hs₁⟩ := exists_take hc hcons
      obtain ⟨-, b', rest', hcons', heq⟩ := take_eq_some hs₁
      have hlength : (s₁.to_aie_strm c).length = n := by
        rw [hcons', List.length_cons] at hn
        rw [heq]
        change (Function.update s.to_aie_strm c rest' c).length = n
        rw [Function.update_self]
        exact Nat.succ.inj hn
      obtain ⟨s', hrun, hempty, hch⟩ := ih s₁ hlength
      exact ⟨s', .head trivial hs₁ hrun, hempty, hch.trans (by rw [heq])⟩

theorem exists_through (hrun : H.lts.Run H.init s) (hc : c < H.p.num_channels)
    (hfree : H.FreeTo c s) :
    ∃ s', H.lts.Run s s' ∧ Through c s' := by
  have hreturn : ∃ s', H.lts.Run s s' ∧ (H.lts.Run H.init s' ∧ H.FreeTo c s')
      ∧ (s'.to_aie_ch c).proc.pc = .returned := by
    refine Lts.RunIf.exists_of_measure
      (fun s => (s.to_aie_ch c).proc.pc.work H.p (H.chs.to_aie_ch c)) (fun s hI hnot => ?_)
      ⟨hrun, hfree⟩
    obtain ⟨s₁, hrun₁, hempty, hch⟩ := exists_emptied (H := H) hc _ s rfl
    have hfree₁ := hI.2.of_run hrun₁
    rcases FeedState.enabled_of_free H.p.toKernel (H.buff c) hfree₁ with
      hreturned | ⟨y, trig, hnext⟩
    · rw [hch] at hreturned
      exact absurd hreturned hnot
    · have hroom : decide ((s₁.to_aie_strm c).length < H.to_depth c) = true := by
        rw [hempty]
        exact decide_eq_true (H.to_pos c)
      obtain ⟨s', hs', hproc⟩ := exists_feed (hI.1.trans hrun₁) hc (by rw [hroom]; exact hnext)
      have hrun' := hrun₁.tail _ trivial hs'
      refine ⟨s', hrun', ⟨hI.1.trans hrun', hI.2.of_run hrun'⟩, ?_⟩
      have hcounts := (feed_inv (loadStream_run (hI.1.trans hrun₁) c)).2.1
      have hlt := (FeedState.counts_of_next hcounts.inRange hnext).2.2
      rw [hch] at hlt
      rw [hproc]
      exact hlt
  obtain ⟨s₁, hrun₁, -, hreturned⟩ := hreturn
  obtain ⟨s', hrun', hempty, hch⟩ := exists_emptied (H := H) hc _ s₁ rfl
  exact ⟨s', hrun₁.trans hrun', by rw [hch]; exact hreturned, hempty⟩

/-- The graph has put out what `get` of channel `c` is to read. -/
def Answered (H : Harness) (inputs : Nat → List Beat) (c : Nat) : Prop :=
  (H.chs.from_aie_ch c).mode = .PERF_MODE →
    (H.chs.from_aie_ch c).numRep * (H.chs.from_aie_ch c).numFrames ≤ (H.graph.out inputs c).length

/-- `get` can go on, if need be after the graph has delivered a word. -/
theorem exists_fed (hrun : H.lts.Run H.init s) (hc : c < H.p.num_channels) (hfree : H.FreeFrom c s)
    (hanswered : H.Answered s.taken c) (hnot : (s.from_aie_ch c).proc.pc ≠ .returned) :
    ∃ s', H.lts.Run s s' ∧ s'.taken = s.taken ∧ (s'.from_aie_ch c).proc.pc
      = (s.from_aie_ch c).proc.pc
      ∧ ∀ room, ∃ y trig, GetState.next H.p (H.chs.from_aie_ch c) room (s'.from_aie_ch c).proc
        = some (y, trig) := by
  by_cases hblocked : (s.from_aie_ch c).proc.strm = []
      ∧ ∃ j i firstData, (s.from_aie_ch c).proc.pc = .perf (j + 1) (i + 1) firstData
  · obtain ⟨hempty, j, i, firstData, hpc⟩ := hblocked
    have hmode : (H.chs.from_aie_ch c).mode = .PERF_MODE := by
      unfold FreeFrom at hfree
      rw [hpc] at hfree
      exact hfree
    have hlt := (perfGot_of_run hrun hmode).reads_lt hpc
    -- everything that was delivered has been read
    have hgiven : s.given c = (beatsOf (s.from_aie_ch c).proc.acts).length := by
      have hreceived := congrArg List.length (received_eq_of_run hrun c)
      rw [received, hempty, List.append_nil, List.length_take,
        Nat.min_eq_left (given_le_of_run hrun c)] at hreceived
      exact hreceived.symm
    have hout : s.given c < (H.graph.out s.taken c).length := by
      rw [hgiven]
      exact hlt.trans_le (hanswered hmode)
    obtain ⟨s', hs'⟩ := exists_give hc (List.getElem?_eq_getElem hout)
      (by rw [hempty]; exact H.from_pos c)
    obtain ⟨-, b, -, -, heq⟩ := give_eq_some hs'
    have hproc : (s'.from_aie_ch c).proc = { (s.from_aie_ch c).proc with strm := [b] } := by
      rw [heq]
      change (Function.update s.from_aie_ch c _ c).proc = _
      rw [Function.update_self, hempty]
      rfl
    refine ⟨s', .single trivial hs', by rw [heq], by rw [hproc], fun room => ?_⟩
    have hfree' : (s'.from_aie_ch c).proc.pc.Free (H.chs.from_aie_ch c) :=
      hfree.of_run (.single trivial hs')
    rcases GetState.enabled_of_free H.p.toKernel room hfree' with
      hreturned | hnext | ⟨hstrm, -⟩
    · rw [hproc] at hreturned
      exact absurd hreturned hnot
    · exact hnext
    · rw [hproc] at hstrm
      cases hstrm
  · refine ⟨s, .refl, rfl, rfl, fun room => ?_⟩
    rcases GetState.enabled_of_free H.p.toKernel room hfree with
      hreturned | hnext | hstuck
    · exact absurd hreturned hnot
    · exact hnext
    · exact absurd hstuck hblocked

theorem exists_got (hrun : H.lts.Run H.init s) (hc : c < H.p.num_channels) (hfree : H.FreeFrom c s)
    (hanswered : H.Answered s.taken c) :
    ∃ s', H.lts.Run s s' ∧ (s'.from_aie_ch c).proc.pc = .returned := by
  have hreturn : ∃ s', H.lts.Run s s'
    ∧ (H.lts.Run H.init s' ∧ H.FreeFrom c s' ∧ H.Answered s'.taken c)
      ∧ (s'.from_aie_ch c).proc.pc = .returned := by
    refine Lts.RunIf.exists_of_measure
      (fun s => (s.from_aie_ch c).proc.pc.work H.p (H.chs.from_aie_ch c)) (fun s hI hnot => ?_)
      ⟨hrun, hfree, hanswered⟩
    obtain ⟨hrun, hfree, hanswered⟩ := hI
    obtain ⟨s₁, hrun₁, htaken, hpc, hnext⟩ := exists_fed hrun hc hfree hanswered hnot
    obtain ⟨y, trig, hnext⟩ := hnext ((s₁.io.from_aie_strm c).length < H.burst_len * 2)
    obtain ⟨s', hs', hproc⟩ := exists_get (hrun.trans hrun₁) hc hnext
    have htaken' : s'.taken = s.taken := by
      obtain ⟨-, ch, room, -, -, rfl⟩ := get_eq_some hs'
      exact htaken
    have hrun' := hrun₁.tail _ trivial hs'
    refine ⟨s', hrun', ⟨hrun.trans hrun', hfree.of_run hrun', by rw [htaken']; exact hanswered⟩, ?_⟩
    have hcounts := (get_inv (storeStream_run (hrun.trans hrun₁) c)).2.1
    have hlt := (GetState.counts_of_next hcounts.inRange hnext).2.2
    rw [hpc] at hlt
    rw [hproc]
    exact hlt
  obtain ⟨s', hrun', -, hreturned⟩ := hreturn
  exact ⟨s', hrun', hreturned⟩

/-- An iteration of a counter alone is one of the region. -/
theorem lifts_countTo (hc : c < H.p.num_channels) : Lts.Lifts H.lts (H.loadStream c)
    (fun s => s.to_aie_ch c) (fun _ => True) (fun _ _ => True) (fun l _ => l = none) := by
  rintro l s ch - rfl hstep
  have hcount : H.lts.step (.countTo c) s
      = some { s with to_aie_ch := Function.update s.to_aie_ch c ch } :=
    (if_pos hc).trans (congrArg (Option.map _) hstep)
  exact ⟨_, .single trivial hcount, trivial, Function.update_self ..⟩

theorem lifts_countFrom (hc : c < H.p.num_channels) : Lts.Lifts H.lts (H.storeStream c)
    (fun s => s.from_aie_ch c) (fun _ => True) (fun _ _ => True) (fun l _ => l = none) := by
  rintro l s ch - rfl hstep
  have hcount : H.lts.step (.countFrom c) s
      = some { s with from_aie_ch := Function.update s.from_aie_ch c ch } :=
    (if_pos hc).trans (congrArg (Option.map _) hstep)
  exact ⟨_, .single trivial hcount, trivial, Function.update_self ..⟩

def Noted (c : Nat) (s : HarnessState) : Prop :=
  (s.to_aie_ch c).cnt.returned = true ∧ (s.from_aie_ch c).cnt.returned = true

theorem Noted.of_run (h : Noted c s) (hrun : H.lts.Run s s') : Noted c s' :=
  ⟨cnt_of_run (loadStream_run hrun c) h.1, cnt_of_run (storeStream_run hrun c) h.2⟩

/-- The counters of a channel whose processes have returned find two triggers each. -/
theorem exists_noted (hrun : H.lts.Run H.init s) (hc : c < H.p.num_channels)
    (hto : (s.to_aie_ch c).proc.pc = .returned) (hfrom : (s.from_aie_ch c).proc.pc = .returned) :
    ∃ s', H.lts.Run s s' ∧ Noted c s' := by
  have hfeed := feed_counted (loadStream_run hrun c)
  obtain ⟨k, -, ch, hexec, hreturned⟩ := hfeed.terminates (hfeed.whole hto).triggers_eq
  obtain ⟨s₁, hrun₁, -, rfl⟩ := (lifts_countTo hc).run trivial rfl
    (Lts.runIf_of_exec (fun _ hl _ => List.eq_of_mem_replicate hl) hexec)
  have hget := get_counted (storeStream_run (hrun.trans hrun₁) c)
  obtain ⟨k', -, ch', hexec', hreturned'⟩ :=
    hget.terminates (hget.whole (returned_of_run hfrom hrun₁)).triggers_eq
  obtain ⟨s', hrun', -, rfl⟩ := (lifts_countFrom hc).run trivial rfl
    (Lts.runIf_of_exec (fun _ hl _ => List.eq_of_mem_replicate hl) hexec')
  exact ⟨s', hrun₁.trans hrun', cnt_of_run (loadStream_run hrun' c) hreturned, hreturned'⟩

/-! ### Everything is sent and taken -/

structure SentAll (H : Harness) (s : HarnessState) : Prop where
  load : s.load.pc = .done
  through : ∀ c < H.p.num_channels, Through c s

theorem SentAll.of_run (h : H.SentAll s) (hrun : H.lts.Run s s') : H.SentAll s' :=
  ⟨load_done_of_run h.load hrun, fun c hc => (h.through c hc).of_run hrun⟩

theorem exists_sent_of_free (hrun : H.lts.Run H.init s) (hload : s.load.pc = .done)
    (hfree : ∀ c < H.p.num_channels, H.FreeTo c s) : ∃ s', H.lts.Run s s' ∧ H.SentAll s' := by
  obtain ⟨s', hrun', hall⟩ := Lts.RunIf.exists_forall_lt
    (I := fun s => H.lts.Run H.init s ∧ ∀ c < H.p.num_channels, H.FreeTo c s) (Q := Through)
    (fun s s' hI hrun => ⟨hI.1.trans hrun, fun c hc => (hI.2 c hc).of_run hrun⟩)
    (fun c s s' h hrun => h.of_run hrun) (fun c hc s hI => exists_through hI.1 hc (hI.2 c hc))
    ⟨hrun, hfree⟩
  exact ⟨s', hrun', load_done_of_run hload hrun', hall⟩

theorem exists_sent_func (hfunc : H.Func) (hfits : H.transmit.Fits) (hrun : H.lts.Run H.init s) :
    ∃ s', H.lts.Run s s' ∧ H.SentAll s' := by
  have hinv := Transmit.inv_of_steps hfits (Transmit.inv_init _) (toTx_run hfunc hrun)
  obtain ⟨t, hT, hload, hdrained⟩ := Transmit.exists_finished hfits hinv
  obtain ⟨s₁, hrun₁, hreach, rfl⟩ := (lifts_transmit hfunc hfits).run hrun rfl hT
  obtain ⟨s', hrun', hsent⟩ := exists_sent_of_free hreach hload fun c hc =>
    FeedProc.free_of_done (allFunc_of_run hfunc hreach c) (hdrained c hc).1
  exact ⟨s', hrun₁.trans hrun', hsent⟩

/-- In performance mode the memory loops have nothing to do. -/
theorem memLoops_of_perf (hmode : ∀ c, (H.chs.to_aie_ch c).mode = .PERF_MODE)
    (hrun : H.lts.Run H.init s) :
    (s.load.pc = .start ∨ s.load.pc = .done) ∧ (s.store.pc = .start ∨ s.store.pc = .done) := by
  refine hrun.invariant (I := fun s => (s.load.pc = .start ∨ s.load.pc = .done)
    ∧ (s.store.pc = .start ∨ s.store.pc = .done)) (fun l s s' hI _ hstep => ?_)
    ⟨Or.inl rfl, Or.inl rfl⟩
  obtain ⟨hload, hstore⟩ := memLoops_of_step hstep
  constructor
  · rcases hload with heq | ⟨x, x', hload⟩
    · rw [heq]
      exact hI.1
    · exact Or.inr (MemLoop.done_of_step (hmode 0)
        (hI.1.resolve_right (MemLoop.ne_done_of_step hload)) hload)
  · rcases hstore with heq | ⟨x, x', hstore⟩
    · rw [heq]
      exact hI.2
    · exact Or.inr (MemLoop.done_of_step (hmode 0)
        (hI.2.resolve_right (MemLoop.ne_done_of_step hstore)) hstore)

theorem exists_load_done (hmode : ∀ c, (H.chs.to_aie_ch c).mode = .PERF_MODE)
    (hrun : H.lts.Run H.init s) : ∃ s', H.lts.Run s s' ∧ s'.load.pc = .done := by
  rcases (memLoops_of_perf hmode hrun).1 with hstart | hdone
  · obtain ⟨m, x, hload⟩ : ∃ m x, H.loadMemories.step s.load (txView s) = some (m, x) := by
      simp only [MemLoop.step, hstart]
      exact ⟨_, _, rfl⟩
    have hs' : H.lts.step .load s = some { s with
        load := m
        reads := x.reads
        lost := x.lost
        to_aie_ch := fun c => withMemStr (s.to_aie_ch c) (x.to_aie_strm c) } :=
      congrArg (Option.map _) hload
    exact ⟨_, .single trivial hs', MemLoop.done_of_step (hmode 0) hstart hload⟩
  · exact ⟨s, .refl, hdone⟩

theorem exists_store_done (hmode : ∀ c, (H.chs.to_aie_ch c).mode = .PERF_MODE)
    (hrun : H.lts.Run H.init s) : ∃ s', H.lts.Run s s' ∧ s'.store.pc = .done := by
  rcases (memLoops_of_perf hmode hrun).2 with hstart | hdone
  · obtain ⟨m, x, hstore⟩ : ∃ m x, H.storeMemories.step s.store s.io = some (m, x) := by
      simp only [MemLoop.step, hstart]
      exact ⟨_, _, rfl⟩
    have hs' : H.lts.step .store s = some { s with store := m, io := x } :=
      congrArg (Option.map _) hstore
    exact ⟨_, .single trivial hs', MemLoop.done_of_step (hmode 0) hstart hstore⟩
  · exact ⟨s, .refl, hdone⟩

theorem exists_sent_perf (hmode : ∀ c, (H.chs.to_aie_ch c).mode = .PERF_MODE)
    (hrun : H.lts.Run H.init s) : ∃ s', H.lts.Run s s' ∧ H.SentAll s' := by
  obtain ⟨s₁, hrun₁, hload⟩ := exists_load_done hmode hrun
  have hreach := hrun.trans hrun₁
  have hfree : ∀ c < H.p.num_channels, H.FreeTo c s₁ := by
    intro c _
    have hnot := (perfFed_of_run hreach (hmode c)).not_func
    unfold FreeTo
    cases hpc : (s₁.to_aie_ch c).proc.pc with
    | wait count => exact hmode c
    | first => exact hmode c
    | func pc => exact absurd hpc (hnot pc)
    | perf j i => trivial
    | last => trivial
    | returned => trivial
  obtain ⟨s', hrun', hsent⟩ := exists_sent_of_free hreach hload hfree
  exact ⟨s', hrun₁.trans hrun', hsent⟩

/-! ### Everything is delivered and stored -/

theorem Answered.of_run (h : H.Answered s.taken c) (hrun : H.lts.Run s s') :
    H.Answered s'.taken c := by
  refine hrun.invariant (I := fun s => H.Answered s.taken c) (fun l s s' hI _ hstep hmode => ?_) h
  exact (hI hmode).trans (H.graph.mono (taken_of_step hstep) c).length_le

structure StoredAll (H : Harness) (s : HarnessState) : Prop where
  store : s.store.pc = .done
  returned : ∀ c < H.p.num_channels, (s.from_aie_ch c).proc.pc = .returned

theorem exists_stored_of_free (hrun : H.lts.Run H.init s) (hstore : s.store.pc = .done)
    (hfree : ∀ c < H.p.num_channels, H.FreeFrom c s)
    (hanswered : ∀ c < H.p.num_channels, H.Answered s.taken c) :
    ∃ s', H.lts.Run s s' ∧ H.StoredAll s' := by
  obtain ⟨s', hrun', hall⟩ := Lts.RunIf.exists_forall_lt
    (I := fun s => H.lts.Run H.init s
      ∧ ∀ c < H.p.num_channels, H.FreeFrom c s ∧ H.Answered s.taken c)
    (Q := fun c s => (s.from_aie_ch c).proc.pc = .returned)
    (fun s s' hI hrun => ⟨hI.1.trans hrun, fun c hc => ⟨(hI.2 c hc).1.of_run hrun,
      (hI.2 c hc).2.of_run hrun⟩⟩)
    (fun c s s' h hrun => returned_of_run h hrun)
    (fun c hc s hI => exists_got hI.1 hc (hI.2 c hc).1 (hI.2 c hc).2)
    ⟨hrun, fun c hc => ⟨hfree c hc, hanswered c hc⟩⟩
  exact ⟨s', hrun', store_done_of_run hstore hrun', hall⟩

/-- With bursts of fewer than 128 words `get` never fills the FIFO up to 256 words. -/
theorem noWrap_of_step {T : Receive} (hburst : T.burst_len < 128) {l : RxLabel} {x x' : RxState}
    (h : T.lts.step l x = some x') : Receive.NoWrap l x := by
  cases l with
  | store => trivial
  | aie c => trivial
  | get c =>
      obtain ⟨-, hchannel⟩ := guard_eq_some h
      obtain ⟨r, hget, -⟩ := Option.map_eq_some_iff.mp hchannel
      intro numData _ hge hput
      have hroom : (x.io.from_aie_strm c).length < T.burst_len * 2 := by
        by_contra hfull
        rw [show decide ((x.io.from_aie_strm c).length < T.capacity) = false from
          decide_eq_false hfull] at hget
        cases hpc : x.get c with
        | put i data =>
            rw [hpc] at hget
            cases hget
        | putRest data =>
            rw [hpc] at hget
            cases hget
        | _ =>
            rw [hpc] at hput
            exact hput
      omega

theorem exists_stored_func (hfunc : H.Func) (hburst : H.burst_len < 128)
    (hfits : (H.receive (H.delivered s.taken)).Fits) (hrun : H.lts.Run H.init s) :
    ∃ s', H.lts.Run s s' ∧ H.StoredAll s' := by
  have hview := (toRx_run hfunc hrun fun c => List.prefix_refl (s.taken c)).1
  have hinv := Receive.inv_of_run hfits (Receive.inv_init _)
    (hview.of_steps fun l x x' hstep => noWrap_of_step hburst hstep)
  obtain ⟨t, hT, hstore, hget⟩ := Receive.exists_complete hfits hinv
  obtain ⟨s₁, hrun₁, ⟨hreach, htaken⟩, rfl⟩ := (lifts_receive hfunc).run ⟨hrun, rfl⟩ rfl hT.toRun
  have hviews := (toRx_run hfunc hreach fun c => List.prefix_refl (s₁.taken c)).2
  obtain ⟨s', hrun', hstored⟩ := exists_stored_of_free hreach hstore
    (fun c hc => GetProc.free_of_done (hviews c).func (hget c hc))
    (fun c _ hmode => TestMode.noConfusion ((hfunc.from_mode c).symm.trans hmode))
  exact ⟨s', hrun₁.trans hrun', hstored⟩

theorem exists_stored_perf (hmode : ∀ c, (H.chs.to_aie_ch c).mode = .PERF_MODE)
    (hanswered : ∀ c < H.p.num_channels, H.Answered s.taken c) (hrun : H.lts.Run H.init s) :
    ∃ s', H.lts.Run s s' ∧ H.StoredAll s' := by
  obtain ⟨s₁, hrun₁, hstore⟩ := exists_store_done hmode hrun
  have hreach := hrun.trans hrun₁
  have hmode' : ∀ c, (H.chs.from_aie_ch c).mode = .PERF_MODE := hmode
  have hfree : ∀ c < H.p.num_channels, H.FreeFrom c s₁ := by
    intro c _
    have hperf := (perfGot_of_run hreach (hmode' c)).perf
    unfold FreeFrom
    cases hpc : (s₁.from_aie_ch c).proc.pc with
    | wait count => exact hmode' c
    | func pc firstData =>
        rw [hpc] at hperf
        exact hperf.elim
    | funcMark pc =>
        rw [hpc] at hperf
        exact hperf.elim
    | perf j i firstData => exact hmode' c
    | perfMark j i => exact hmode' c
    | after firstData => trivial
    | last => trivial
    | returned => trivial
  obtain ⟨s', hrun', hstored⟩ := exists_stored_of_free hreach hstore hfree
    fun c hc => (hanswered c hc).of_run hrun₁
  exact ⟨s', hrun₁.trans hrun', hstored⟩

/-! ### The counters -/

theorem exists_complete_of_stored (hrun : H.lts.Run H.init s) (hsent : H.SentAll s)
    (hstored : H.StoredAll s) : ∃ s', H.lts.Run s s' ∧ H.Complete s' := by
  obtain ⟨s', hrun', hall⟩ := Lts.RunIf.exists_forall_lt
    (I := fun s => H.lts.Run H.init s ∧ ∀ c < H.p.num_channels,
      Through c s ∧ (s.from_aie_ch c).proc.pc = .returned) (Q := Noted)
    (fun s s' hI hrun => ⟨hI.1.trans hrun, fun c hc => ⟨(hI.2 c hc).1.of_run hrun,
      returned_of_run (hI.2 c hc).2 hrun⟩⟩)
    (fun c s s' h hrun => h.of_run hrun)
    (fun c hc s hI => exists_noted hI.1 hc (hI.2 c hc).1.returned (hI.2 c hc).2)
    ⟨hrun, fun c hc => ⟨hsent.through c hc, hstored.returned c hc⟩⟩
  have hsent' := hsent.of_run hrun'
  exact ⟨s', hrun', hsent'.load, store_done_of_run hstored.store hrun',
    fun c hc => ⟨(hsent'.through c hc).returned, (hall c hc).1⟩,
    fun c hc => ⟨returned_of_run (hstored.returned c hc) hrun', (hall c hc).2⟩⟩

/-! ### Both modes -/

def Answers (p : Platform) (graph : AieGraph p.toKernel) (mode : TestMode)
    (args : List TestHarnessArgs) :
    Prop :=
  ∀ a ∈ args, a.IsFrom p.toSetup →
    a.repetition.toNat * (a.size / p.word_size) ≤ (graph.out (streams p mode args) a.fromChn).length

section Complete

variable {t t' : Transaction} {args : List TestHarnessArgs} {mode : TestMode}

/-- What the graph has taken when everything is sent. -/
theorem taken_of_sent (hstreams : ∀ c < H.p.num_channels, s.taken c ++ s.to_aie_strm c
      = streams H.p mode args c) (hsent : H.SentAll s) (hrun : H.lts.Run H.init s) :
    s.taken = streams H.p mode args := by
  funext c
  by_cases hc : c < H.p.num_channels
  · rw [← hstreams c hc, (hsent.through c hc).strm, List.append_nil]
  · rw [taken_of_ge hrun (Nat.le_of_not_lt hc), streams_of_unlisted]
    rintro a - hato rfl
    exact hc hato.toChn_lt

theorem exists_complete_func (hB : 1 ≤ H.burst_len) (hburst : H.burst_len < 128)
    (hto : FuncToLayout H.p t' args) (hfrom : FuncFromLayout H.p t' args)
    (hdistinct : DistinctChannels args)
    (hbuffer : ∀ a ∈ args, a.IsFrom H.p.toSetup → a.size ≤ a.data.bytes.length)
    (hbuffers : H.buffers = t'.buffers) (hanswers : Answers H.p H.graph .FUNC_MODE args)
    (hrun : H.lts.Run H.init s) : ∃ s', H.lts.Run s s' ∧ H.Complete s' := by
  have hfunc := func_of_layout hto hbuffers
  have hsmall : H.transmit.Small := by
    rw [transmit_eq hbuffers]
    exact transmitOf_small _ _ hto
  obtain ⟨s₁, hrun₁, hsent⟩ := exists_sent_func hfunc ⟨hsmall, hfunc 0, hB, hburst, H.to_pos⟩ hrun
  have hreach := hrun.trans hrun₁
  have htaken : s₁.taken = streams H.p .FUNC_MODE args := taken_of_sent
    (fun c hc => sent_eq_streams hto hdistinct hbuffers hreach hsent.load hc
      (hsent.through c hc).returned) hsent hreach
  have hdelivers : Delivers H.p args (H.delivered s₁.taken) := by
    refine ⟨H.sized_delivered _, fun a ha hafrom => ?_⟩
    obtain ⟨off, hentry, hregion⟩ := hfrom.listed a ha hafrom
    have hdecoded := fromDecoded hto ha (hbuffer a ha hafrom) hentry hregion
    have hframes : (H.chs.from_aie_ch a.fromChn).numFrames = a.size / H.p.word_size := by
      rw [chs, show H.cfg = t'.cfg_ptr from congrArg PlBuffers.cfg hbuffers]
      exact hdecoded.frames_eq
    have henough := hanswers a ha hafrom
    rw [(hto.checked a ha).2, Nat.one_mul, ← htaken] at henough
    rw [delivered, List.length_take, hframes, Nat.min_eq_left henough]
  have hfits : (H.receive (H.delivered s₁.taken)).Fits := by
    rw [receive_eq hbuffers]
    exact receiveOf_fits hto hfrom hB hburst.le hbuffer hdelivers
  obtain ⟨s₂, hrun₂, hstored⟩ := exists_stored_func hfunc hburst hfits hreach
  obtain ⟨s', hrun', hcomplete⟩ :=
    exists_complete_of_stored (hreach.trans hrun₂) (hsent.of_run hrun₂) hstored
  exact ⟨s', (hrun₁.trans hrun₂).trans hrun', hcomplete⟩

theorem exists_complete_perf (haddr : Addressable H.p) (hlayout : PerfLayout H.p t' args)
    (hdistinct : DistinctChannels args)
    (hsmall : ∀ a ∈ args, a.size / H.p.word_size < 2 ^ 32 ∧ a.repetition.toNat < 2 ^ 32)
    (hbuffers : H.buffers = t'.buffers) (hanswers : Answers H.p H.graph .PERF_MODE args)
    (hrun : H.lts.Run H.init s) : ∃ s', H.lts.Run s s' ∧ H.Complete s' := by
  have hcfg := chs_eq hbuffers
  have hmode : ∀ c, (H.chs.to_aie_ch c).mode = .PERF_MODE := by
    intro c
    rw [hcfg]
    exact hlayout.cfg_mode
  obtain ⟨s₁, hrun₁, hsent⟩ := exists_sent_perf hmode hrun
  have hreach := hrun.trans hrun₁
  have htaken : s₁.taken = streams H.p .PERF_MODE args := by
    refine taken_of_sent (fun c hc => ?_) hsent hreach
    rw [← feedPerf_eq_streams haddr hlayout hdistinct hbuffers hsmall hc]
    exact sent_of_returned hreach (hmode c) (hsent.through c hc).returned
  have hanswered : ∀ c < H.p.num_channels, H.Answered s₁.taken c := by
    intro c hc _
    have hchannel : H.chs.from_aie_ch c = loadChannel H.p t'.cfg_ptr 4 c := by
      rw [hcfg]
      rfl
    by_cases hlisted : ∀ a ∈ args, a.IsFrom H.p.toSetup → a.fromChn ≠ c
    · rw [hchannel, hlayout.unlisted_from c hc hlisted]
      exact Nat.zero_le _
    · simp only [not_forall, not_not] at hlisted
      obtain ⟨a, ha, hafrom, rfl⟩ := hlisted
      obtain ⟨hframes, hrep⟩ := hsmall a ha
      rw [hchannel, (hlayout.listed_from a ha hafrom).1, htaken]
      change u32 a.repetition.toNat * u32 (a.size / H.p.word_size) ≤ _
      rw [u32_of_lt hrep, u32_of_lt hframes]
      exact hanswers a ha hafrom
  obtain ⟨s₂, hrun₂, hstored⟩ := exists_stored_perf hmode hanswered hreach
  obtain ⟨s', hrun', hcomplete⟩ :=
    exists_complete_of_stored (hreach.trans hrun₂) (hsent.of_run hrun₂) hstored
  exact ⟨s', (hrun₁.trans hrun₂).trans hrun', hcomplete⟩

end Complete

end Harness

/-- With bursts of fewer than 128 words, and a graph that puts out what it is asked for, the kernel
gets through: whatever its processes have done so far, they can all return. -/
theorem Card.gets_through (d : Card) (t t' : Transaction) (args : List TestHarnessArgs)
    (u : Uram d.p) (s : HarnessState) (hburst : d.burst_len < 128) (hposed : Posed d.p t args)
    (hinputs : t.handleInputs args = .ok t') (hlimit : t'.getMemoryUsage ≤ 2 ^ 30)
    (hanswers : Harness.Answers d.p d.graph t.mode args)
    (hrun : (d.harness u t'.buffers).lts.Run (d.harness u t'.buffers).init s) :
    ∃ s', (d.harness u t'.buffers).lts.Run s s' ∧ (d.harness u t'.buffers).Complete s' := by
  obtain ⟨hsetup, hdistinct, hbuffer, hperf⟩ := hposed
  cases hmode : t.mode with
  | FUNC_MODE =>
      rw [hmode] at hanswers
      exact (d.harness u t'.buffers).exists_complete_func d.burst_pos hburst
        (funcToLayout_of_handleInputs hsetup hmode hdistinct hinputs hlimit)
        (funcFromLayout_of_handleInputs hsetup hmode hdistinct hbuffer hinputs hlimit)
        hdistinct hbuffer rfl hanswers hrun
  | PERF_MODE =>
      rw [hmode] at hanswers
      obtain ⟨haddr, hsmall⟩ := hperf hmode
      exact (d.harness u t'.buffers).exists_complete_perf haddr
        (perfLayout_of_handleInputs haddr hsetup hmode hdistinct hinputs) hdistinct hsmall rfl
        hanswers hrun

theorem sixteen_le : 16 ≤ 128 := by decide

/-- The one-channel card with bursts of 16 words, as the kernels are built. -/
def burstCard : Card :=
  { soleCard with
    burst_len := 16
    burst_pos := Nat.succ_pos 15
    burst_le := sixteen_le }

theorem Card.gets_through_sole : ∃ t' s',
    (soleTransaction .FUNC_MODE).handleInputs soleArgs = .ok t'
    ∧ (burstCard.harness soleUram t'.buffers).lts.Run
      (burstCard.harness soleUram t'.buffers).init s'
    ∧ (burstCard.harness soleUram t'.buffers).Complete s' := by
  obtain ⟨t', hinputs, htest⟩ := Loops.exists_of_test
    (e := (soleTransaction .FUNC_MODE).handleInputs soleArgs)
    (fun t' : Transaction => decide (t'.getMemoryUsage ≤ 2 ^ 30)) (by decide +kernel)
  have hanswers : Harness.Answers solePlatform (incrementGraph _) .FUNC_MODE soleArgs := by
    unfold Harness.Answers
    decide +kernel
  obtain ⟨s', hrun, hcomplete⟩ := burstCard.gets_through _ t' soleArgs soleUram _ (by decide)
    posed_sole hinputs (of_decide_eq_true htest) hanswers .refl
  exact ⟨t', s', hinputs, hrun, hcomplete⟩

end AieTestHarness
