import AieTestHarness.Proof.FuncTransmit
import Mathlib.Algebra.Order.BigOperators.Group.Finset

/-!
# Functional mode towards the AIE: no run gets stuck

Bursts of fewer than 128 words cannot wrap the counter of the last loop. From every reachable state
the run can then be completed: the AIE takes what there is, `feed` goes on until its FIFO is empty,
and an empty FIFO has room for whatever `load_memories` is to move next.
-/

namespace AieTestHarness

open Slices

section Rank

variable {p : Kernel} {ch : Channel} {word : Nat → MemWord} {pc pc' : FeedPc}
  {fifo fifo' : List MemWord} {out sent : List Beat} {moved : Nat}

def FeedPc.rank (p : Kernel) (ch : Channel) : FeedPc → Nat
  | .wait count => count + 1 + (ch.numFrames / p.memRatio + 1) * (p.memRatio + 2)
  | .head i => (ch.numFrames / p.memRatio - i + 1) * (p.memRatio + 2)
  | .word i _ j => (ch.numFrames / p.memRatio - i) * (p.memRatio + 2) + (p.memRatio - j) + 1
  | .rest _ j => ch.numFrames % p.memRatio - j + 1
  | .done => 0

/-- Every statement brings `feed` nearer to its end. -/
theorem rank_lt_of_feedStep {room : Bool} (hin : pc.InRange p ch)
    (h : feedStep p ch room fifo pc = some (pc', fifo', out)) : pc'.rank p ch < pc.rank p ch := by
  have hR : p.memRatio ≤ 16 := p.ratio_le
  have hremlt := Nat.mod_lt ch.numFrames p.memRatio_pos
  cases pc with
  | wait count =>
      cases count with
      | zero =>
          cases h
          simp only [FeedPc.rank, Nat.sub_zero]
          omega
      | succ count =>
          cases h
          simp only [FeedPc.rank]
          omega
  | head i =>
      simp only [feedStep] at h
      split at h
      · next hi =>
        cases fifo with
        | nil => cases h
        | cons data fifo =>
            cases h
            simp only [FeedPc.rank, Nat.sub_zero, Nat.succ_mul]
            omega
      · split at h
        · cases fifo with
          | nil => cases h
          | cons data fifo =>
              cases h
              simp only [FeedPc.rank, Nat.sub_zero, Nat.succ_mul]
              omega
        · cases h
          simp only [FeedPc.rank, Nat.succ_mul]
          omega
  | word i data j =>
      have hi := hin.1
      simp only [feedStep] at h
      split at h
      · split at h
        · cases h
          simp only [FeedPc.rank]
          omega
        · cases h
      · cases h
        simp only [FeedPc.rank, show ch.numFrames / p.memRatio - (i + 1) + 1
          = ch.numFrames / p.memRatio - i by omega]
        omega
  | rest data j =>
      simp only [feedStep] at h
      split at h
      · split at h
        · cases h
          simp only [FeedPc.rank, Nat.mod_eq_of_lt (show j + 1 < 2 ^ 5 by omega)]
          omega
        · cases h
      · cases h
        simp only [FeedPc.rank]
        omega
  | done => cases h

variable (fifo) in
/-- With room on the AXI stream `feed` has returned, can move, or waits for a word that is still to
come. -/
theorem feedStep_enabled (hin : pc.InRange p ch) :
    pc = .done ∨ (∃ pc' fifo' out, feedStep p ch true fifo pc = some (pc', fifo', out))
      ∨ fifo = [] ∧ pc.reads p ch < ch.words p := by
  cases pc with
  | wait count =>
      refine Or.inr (Or.inl ?_)
      cases count with
      | zero => exact ⟨_, _, _, rfl⟩
      | succ count => exact ⟨_, _, _, rfl⟩
  | head i =>
      refine Or.inr ?_
      simp only [feedStep]
      split
      · next hi =>
        cases fifo with
        | nil =>
            refine Or.inr ⟨rfl, ?_⟩
            change i < ch.words p
            by_cases hrem : ch.numFrames % p.memRatio = 0
            · rwa [words_of_rem_eq_zero hrem]
            · rw [words_of_rem_ne_zero hrem]
              omega
        | cons data fifo => exact Or.inl ⟨_, _, _, rfl⟩
      · split
        · next hrem =>
          cases fifo with
          | nil =>
              refine Or.inr ⟨rfl, ?_⟩
              change i < ch.words p
              change i ≤ _ at hin
              rw [words_of_rem_ne_zero hrem]
              omega
          | cons data fifo => exact Or.inl ⟨_, _, _, rfl⟩
        · exact Or.inl ⟨_, _, _, rfl⟩
  | word i data j =>
      refine Or.inr (Or.inl ?_)
      simp only [feedStep]
      split
      · exact ⟨_, _, _, rfl⟩
      · exact ⟨_, _, _, rfl⟩
  | rest data j =>
      refine Or.inr (Or.inl ?_)
      simp only [feedStep]
      split
      · exact ⟨_, _, _, rfl⟩
      · exact ⟨_, _, _, rfl⟩
  | done => exact Or.inl rfl

end Rank

namespace Transmit

open MemLoop

variable {T : Transmit} {s s' : TxState} {c : Nat}

structure Fits (T : Transmit) : Prop where
  small : T.Small
  mode_eq : (T.chs.to_aie_ch 0).mode = .FUNC_MODE
  burst_pos : 0 < T.burst_len
  burst_lt : T.burst_len < 128
  axi_pos : ∀ c, 0 < T.axiDepth c

/-- A FIFO has no room for what the last loop could not count. -/
theorem Fits.lt_of_resReady (hs : T.Fits) {x : TxIO} {n : Nat}
    (h : T.loadMemories.resReady x c n = true) : n < 2 ^ 8 := by
  have hlen : (x.to_aie_strm c).length + n ≤ T.burst_len * 2 := of_decide_eq_true h
  have := hs.burst_lt
  omega

theorem Fits.not_wraps (hs : T.Fits) (m : MemProc) (x : TxIO) : ¬ T.loadMemories.Wraps m x := by
  rintro ⟨ch_id, numData, -, hready, hge⟩
  have := hs.lt_of_resReady hready
  omega

theorem Fits.restSmall (hs : T.Fits) (x : TxIO) : T.loadMemories.RestSmall x :=
  fun _ _ hres _ => hs.lt_of_resReady hres

theorem inv_step (hs : T.Fits) {l : TxLabel} (hI : T.Inv s) (h : T.lts.step l s = some s') :
    T.Inv s' := by
  cases l with
  | load => exact inv_load hs.small hI (hs.not_wraps _ _) h
  | feed c => exact inv_feed hI h
  | aie c => exact inv_aie hI h

theorem inv_of_steps (hs : T.Fits) (hI : T.Inv s) (hrun : T.lts.Run s s') : T.Inv s' :=
  hrun.invariant (fun _ _ _ h _ hstep => inv_step hs h hstep) hI

/-- What `feed` and the AIE reach on channel `c` with everything else at rest. -/
structure FeedOnly (T : Transmit) (c : Nat) (s s' : TxState) : Prop where
  run : T.lts.Run s s'
  load_eq : s'.load = s.load
  feed_eq : ∀ c', c' ≠ c → s'.feed c' = s.feed c'
  axi_eq : ∀ c', c' ≠ c → s'.axi c' = s.axi c'

theorem FeedOnly.refl : T.FeedOnly c s s := ⟨.refl, rfl, fun _ _ => rfl, fun _ _ => rfl⟩

theorem FeedOnly.trans {s₁ s₂ s₃ : TxState} (h₁ : T.FeedOnly c s₁ s₂) (h₂ : T.FeedOnly c s₂ s₃) :
    T.FeedOnly c s₁ s₃ :=
  ⟨h₁.run.trans h₂.run, h₂.load_eq.trans h₁.load_eq,
    fun c' hc' => (h₂.feed_eq c' hc').trans (h₁.feed_eq c' hc'),
    fun c' hc' => (h₂.axi_eq c' hc').trans (h₁.axi_eq c' hc')⟩

/-- The AIE takes all there is. The induction is on what there is. -/
theorem exists_taken (T : Transmit) (c : Nat) (n : Nat) : ∀ s : TxState, (s.axi c).length = n →
    ∃ s', T.FeedOnly c s s' ∧ s'.axi c = [] ∧ s'.feed = s.feed ∧ s'.io = s.io := by
  induction n with
  | zero => exact fun s hn => ⟨s, .refl, List.length_eq_zero_iff.mp hn, rfl, rfl⟩
  | succ n ih =>
      intro s hn
      obtain ⟨b, rest, hcons⟩ := List.exists_cons_of_length_eq_add_one hn
      have hstep : T.lts.step (.aie c) s = some { s with axi := Function.update s.axi c rest } := by
        simp only [lts, hcons]
      have hone : T.FeedOnly c s { s with axi := Function.update s.axi c rest } :=
        ⟨.single trivial hstep, rfl, fun _ _ => rfl, fun c' hc' => Function.update_of_ne hc' ..⟩
      have hlength : (Function.update s.axi c rest c).length = n := by
        rw [Function.update_self]
        rw [hcons, List.length_cons] at hn
        exact Nat.succ.inj hn
      obtain ⟨s', honly, haxi, hfeed, hio⟩ := ih { s with axi := Function.update s.axi c rest }
        hlength
      exact ⟨s', hone.trans honly, haxi, hfeed, hio⟩

theorem feedOnly_feed (hc : c < T.p.num_channels) {pc : FeedPc} {fifo : List MemWord}
    {out : List Beat}
    (h : feedStep T.p (T.chs.to_aie_ch c) ((s.axi c).length < T.axiDepth c) (s.io.to_aie_strm c)
      (s.feed c) = some (pc, fifo, out)) :
    ∃ s', T.FeedOnly c s s' ∧ s'.feed c = pc := by
  have hstep : T.lts.step (.feed c) s = some
      { s with
        io := { s.io with to_aie_strm := Function.update s.io.to_aie_strm c fifo }
        feed := Function.update s.feed c pc
        axi := Function.update s.axi c (s.axi c ++ out)
        sent := Function.update s.sent c (s.sent c ++ out) } := by
    simp only [lts, if_pos hc, feedChannel, h, Option.map_some]
  exact ⟨_, ⟨.single trivial hstep, rfl, fun c' hc' => Function.update_of_ne hc' ..,
    fun c' hc' => Function.update_of_ne hc' ..⟩, Function.update_self ..⟩

def Starved (T : Transmit) (c : Nat) (s : TxState) : Prop :=
  s.feed c = .done ∨ s.io.to_aie_strm c = []
    ∧ (s.feed c).reads T.p (T.chs.to_aie_ch c) < (T.chs.to_aie_ch c).words T.p

theorem exists_feed_step (hs : T.Fits) (hI : T.Inv s) (hc : c < T.p.num_channels)
    (hfed : ¬ T.Starved c s) :
    ∃ s', T.FeedOnly c s s'
      ∧ (s'.feed c).rank T.p (T.chs.to_aie_ch c) < (s.feed c).rank T.p (T.chs.to_aie_ch c) := by
  obtain ⟨hdone, hempty⟩ := not_or.mp hfed
  obtain ⟨s₁, honly, haxi, hfeed, hio⟩ := exists_taken T c _ s rfl
  have hok := (hI.flow c hc).ok
  rcases feedStep_enabled (s.io.to_aie_strm c) hok.inRange with h | ⟨pc, fifo, out, h⟩ | h
  · exact absurd h hdone
  · have hroom : decide ((s₁.axi c).length < T.axiDepth c) = true := by
      rw [haxi]
      exact decide_eq_true (hs.axi_pos c)
    have h₁ : feedStep T.p (T.chs.to_aie_ch c) ((s₁.axi c).length < T.axiDepth c)
        (s₁.io.to_aie_strm c) (s₁.feed c) = some (pc, fifo, out) := by
      rw [hroom, hio, hfeed]
      exact h
    obtain ⟨s', honly', hfeed'⟩ := feedOnly_feed hc h₁
    refine ⟨s', honly.trans honly', ?_⟩
    rw [hfeed']
    exact rank_lt_of_feedStep hok.inRange h
  · exact absurd h hempty

/-- `feed` and the AIE go on until `feed` has returned or waits for a word. -/
theorem exists_starved (hs : T.Fits) (hc : c < T.p.num_channels) (n : Nat) : ∀ s : TxState,
    T.Inv s →
    (s.feed c).rank T.p (T.chs.to_aie_ch c) ≤ n → ∃ s', T.FeedOnly c s s' ∧ T.Starved c s' := by
  induction n with
  | zero =>
      intro s hI hrank
      by_cases hstop : T.Starved c s
      · exact ⟨s, .refl, hstop⟩
      · obtain ⟨s', -, hlt⟩ := exists_feed_step hs hI hc hstop
        omega
  | succ n ih =>
      intro s hI hrank
      by_cases hstop : T.Starved c s
      · exact ⟨s, .refl, hstop⟩
      · obtain ⟨s₁, honly, hlt⟩ := exists_feed_step hs hI hc hstop
        obtain ⟨s', honly', hstop'⟩ := ih s₁ (inv_of_steps hs hI honly.run) (by omega)
        exact ⟨s', honly.trans honly', hstop'⟩

def Drained (c : Nat) (s : TxState) : Prop := s.feed c = .done ∧ s.axi c = []

/-- With all words moved, `feed` of every channel returns. -/
theorem exists_drained (hs : T.Fits) (hI : T.Inv s)
    (hall : ∀ c < T.p.num_channels, moved s.load c = T.loadMemories.numWords c) (n : Nat)
    (hn : n ≤ T.p.num_channels) :
    ∃ s', T.lts.Run s s' ∧ s'.load = s.load ∧ ∀ c < n, Drained c s' := by
  induction n with
  | zero => exact ⟨s, .refl, rfl, fun c hc => absurd hc (Nat.not_lt_zero c)⟩
  | succ n ih =>
      obtain ⟨s₁, hrun₁, hload₁, hdrained₁⟩ := ih (by omega)
      have hc : n < T.p.num_channels := hn
      have hI₁ := inv_of_steps hs hI hrun₁
      obtain ⟨s₂, honly₂, hstop⟩ := exists_starved hs hc _ s₁ hI₁ (Nat.le_refl _)
      obtain ⟨s₃, honly₃, haxi, hfeed, -⟩ := exists_taken T n _ s₂ rfl
      have honly := honly₂.trans honly₃
      refine ⟨s₃, hrun₁.trans honly.run, honly.load_eq.trans hload₁, fun c' hc' => ?_⟩
      by_cases heq : c' = n
      · subst heq
        refine ⟨?_, haxi⟩
        rw [hfeed]
        rcases hstop with hdone | ⟨hempty, hlt⟩
        · exact hdone
        · -- the words it waits for have all been moved
          have hflow := (inv_of_steps hs hI₁ honly₂.run).flow c' hc
          have hlength := congrArg List.length hflow.fifo_eq
          rw [hempty, List.length_map, List.length_range', List.length_nil] at hlength
          rw [honly₂.load_eq, hload₁, hall c' hc, hs.small.numWords_eq hc] at hlength
          omega
      · obtain ⟨hdone, htaken⟩ := hdrained₁ c' (by omega)
        exact ⟨(honly.feed_eq c' heq).trans hdone, (honly.axi_eq c' heq).trans htaken⟩

def left (T : Transmit) (sched : Scheduler) : Nat :=
  ∑ c ∈ Finset.range T.p.num_channels, (T.loadMemories.numWords c - sched.frame_idx c)

theorem moved_of_head {sched : Scheduler} (hhead : s.load = ⟨sched, .head⟩) :
    moved s.load = sched.frame_idx := by
  funext c
  simp [moved, inFlight, hhead]

/-- A FIFO that `feed` has emptied has room for what comes next. -/
theorem ready_of_empty (T : Transmit) {x : TxIO} {n : Nat} (hempty : x.to_aie_strm c = []) :
    T.loadMemories.Ready x c n := by
  have hcap : T.capacity = T.burst_len * 2 := rfl
  have hlength : (x.to_aie_strm c).length = 0 := by rw [hempty, List.length_nil]
  by_cases hn : T.burst_len ≤ n
  · refine Or.inl ⟨hn, decide_eq_true ?_⟩
    omega
  · refine Or.inr (decide_eq_true ?_)
    omega

theorem run_load_from {sched : Scheduler} {m : MemProc} {x : TxIO} (hhead : s.load = ⟨sched, .head⟩)
    (hrun : T.loadMemories.lts.Run (⟨sched, .head⟩, s.io) (m, x)) :
    T.lts.Run s { s with load := m, io := x } := by
  have := run_load (s := s) hrun
  rwa [← hhead] at this

theorem exists_round (hs : T.Fits) (hI : T.Inv s) {sched : Scheduler}
    (hhead : s.load = ⟨sched, .head⟩)
    (hc : c < T.p.num_channels) (hlt : sched.frame_idx c < T.loadMemories.numWords c) :
    ∃ s' sched', T.lts.Run s s' ∧ s'.load = ⟨sched', .head⟩ ∧ T.left sched' < T.left sched := by
  have hsched : sched.Inv T.p.num_channels T.loadMemories.numWords := by
    have := hI.load.sched
    rwa [hhead] at this
  obtain ⟨s₁, honly, hstop⟩ := exists_starved hs hc _ s hI (Nat.le_refl _)
  have hhead₁ := honly.load_eq.trans hhead
  have hempty : s₁.io.to_aie_strm c = [] := by
    rcases hstop with hdone | ⟨hempty, -⟩
    · -- a `feed` that has returned has read all words, so all have been moved
      have hle := ((inv_of_steps hs hI honly.run).flow c hc).reads_le
      rw [hdone, moved_of_head hhead₁] at hle
      rw [hs.small.numWords_eq hc] at hlt
      exact absurd hlt (Nat.not_lt.mpr hle)
    · exact hempty
  have hmem : c ∈ sched.window := by
    by_contra hout
    exact absurd hlt (hsched.finished c hc hout).not_lt
  obtain ⟨before, after, hwindow⟩ := List.append_of_mem hmem
  obtain ⟨ch, k, sched', y, hk, hch, -, hle, hframe, hrun⟩ := run_until_ready hs.burst_pos
    (hs.restSmall s₁.io) after sched before hsched hwindow hlt (ready_of_empty T hempty)
  refine ⟨_, sched', honly.run.trans (run_load_from hhead₁ hrun), rfl, ?_⟩
  unfold left
  refine Finset.sum_lt_sum (fun c' _ => ?_) ⟨ch, Finset.mem_range.mpr hch, ?_⟩
  · rw [hframe]
    by_cases heq : c' = ch
    · subst heq
      rw [Function.update_self]
      omega
    · rw [Function.update_of_ne heq]
  · rw [hframe, Function.update_self]
    change sched.frame_idx ch + k ≤ T.loadMemories.numWords ch at hle
    omega

/-- `load_memories` and every `feed` have returned, and the AIE has taken everything. -/
def Finished (T : Transmit) (s : TxState) : Prop :=
  s.load.pc = .done ∧ ∀ c < T.p.num_channels, Drained c s

/-- From the head of `load_memories` the run can be completed. The induction is on the words
left. -/
theorem finished_of_head (hs : T.Fits) (n : Nat) : ∀ (s : TxState) (sched : Scheduler), T.Inv s →
    s.load = ⟨sched, .head⟩ → T.left sched ≤ n → ∃ s', T.lts.Run s s' ∧ T.Finished s' := by
  induction n using Nat.strongRecOn with
  | ind n ih =>
      intro s sched hI hhead hleft
      have hsched := hI.load.sched
      rw [hhead] at hsched
      by_cases hall : ∀ c < T.p.num_channels, sched.frame_idx c = T.loadMemories.numWords c
      · obtain ⟨s₁, hrun₁, hload₁, hdrained⟩ := exists_drained hs hI
          (by rw [moved_of_head hhead]; exact hall) _ (Nat.le_refl _)
        obtain ⟨sched', hrun'⟩ :=
          run_to_done (L := T.loadMemories) (x := s₁.io) _ sched rfl hsched hall
        exact ⟨_, hrun₁.trans (run_load_from (hload₁.trans hhead) hrun'), rfl, hdrained⟩
      · simp only [not_forall] at hall
        obtain ⟨c, hc, hne⟩ := hall
        obtain ⟨s₁, sched₁, hrun₁, hhead₁, hlt⟩ :=
          exists_round hs hI hhead hc (lt_of_le_of_ne (hsched.frame_le c hc) hne)
        obtain ⟨s', hrun', hfinished⟩ :=
          ih (T.left sched₁) (by omega) s₁ sched₁ (inv_of_steps hs hI hrun₁) hhead₁ (Nat.le_refl _)
        exact ⟨s', hrun₁.trans hrun', hfinished⟩

/-- Every reachable state has a continuation that completes the run. -/
theorem exists_finished (hs : T.Fits) (hI : T.Inv s) : ∃ s', T.lts.Run s s' ∧ T.Finished s' := by
  rcases run_to_head (L := T.loadMemories) hs.mode_eq (hs.restSmall s.io)
    (fun _ _ _ hready => hs.lt_of_resReady hready) hI.load with hdone | ⟨sched, y, hrun⟩
  · obtain ⟨s', hrun', hload', hdrained⟩ := exists_drained hs hI
      (fun c hc => moved_of_done hs.mode_eq hI.load hdone hc) _ (Nat.le_refl _)
    exact ⟨s', hrun', by rw [hload']; exact hdone, hdrained⟩
  · have hrun₁ := run_load (s := s) hrun
    obtain ⟨s', hrun', hfinished⟩ :=
      finished_of_head hs _ _ sched (inv_of_steps hs hI hrun₁) rfl (Nat.le_refl _)
    exact ⟨s', Lts.RunIf.trans hrun₁ hrun', hfinished⟩

end Transmit

end AieTestHarness
