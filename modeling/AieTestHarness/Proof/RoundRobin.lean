import AieTestHarness.Proof.FuncTransmit
import AieTestHarness.Proof.Receive

/-!
# The memory loops: round robin

`load_memories` and `store_memories` beside processes that change the FIFOs in any way they like,
with a record of the channels the loop reads. What it does to its window are turns, so it is round
robin whatever the FIFOs do. The last loop of a pass is for fewer words than a burst: a FIFO that is
not ready for a burst is not ready for more than that. The two tests look at the FIFO one after the
other, though, and it must not become ready for a burst or more in between.
-/

namespace AieTestHarness

open Window

structure Rounds (σ : Type) where
  loop : MemProc
  io : σ
  /-- Channels read at the head of the loop, the latest first. -/
  visits : List Nat
  steps : Nat

/-- `loop` is a statement of the loop, `others io` leaves the FIFOs as other processes want them. -/
inductive RoundLabel (σ : Type) where
  | loop
  | others (io : σ)

def MemProc.visit (m : MemProc) : Option Nat :=
  match m.pc with
  | .head => if m.sched.num_valid_channels = 0 then none else some m.sched.ch_id
  | _ => none

namespace MemLoop

variable {σ : Type} (L : MemLoop σ)

def rounds : Lts (Rounds σ) (RoundLabel σ) where
  step
    | .loop, s => (L.step s.loop s.io).map fun (loop, io) =>
      ⟨loop, io, s.loop.visit.toList ++ s.visits, s.steps + 1⟩
    | .others io, s => some { s with io }

def enter (io : σ) : Rounds σ := ⟨L.start, io, [], 0⟩

/-- While the loop stands between the two tests of a pass over a channel with a burst left or more,
the FIFO of that channel does not become ready for all that is left. -/
def Steady : RoundLabel σ → Rounds σ → Prop
  | .loop, _ => True
  | .others io, s => ∀ ch_id numData, s.loop.pc = .resTest ch_id numData →
      L.burst_len ≤ numData → L.resReady io ch_id numData = false

/-- The frames of each channel fit the host's memory limit. -/
def FrameLimit : Prop :=
  ∀ c < L.p.num_channels, (L.chs c).numFrames * L.p.word_size ≤ 2 ^ 30

structure RoundRobin (s : Rounds σ) : Prop where
  distinct : s.loop.pc = .head → s.loop.sched.window.Nodup
  pending : s.loop.pc = .head → ∀ c < L.p.num_channels,
    s.loop.sched.frame_idx c < (L.chs c).words L.p → c ∈ s.loop.sched.window
  /-- Between a visit of a channel and the next one every other active channel is visited once. -/
  between : ∀ t c vs, L.rounds.RunIf L.Steady s t → s.loop.visit = some c → t.loop.visit = some c →
    t.visits = vs ++ c :: s.visits → c ∉ vs →
    vs.Nodup ∧ ∀ d, d ∈ vs ↔ d ∈ s.loop.sched.window ∧ d ≠ c
  /-- As many statements as the passes over the active channels take visit all of them. -/
  served : ∀ t, L.rounds.RunIf L.Steady s t → s.loop.pc = .head →
    s.steps + (L.burst_len + 3) * s.loop.sched.num_valid_channels ≤ t.steps →
    ∃ vs, t.visits = vs ++ s.visits ∧ ∀ c ∈ s.loop.sched.window, c ∈ vs
  residual : ∀ ch_id numData j, s.loop.pc = .residual ch_id numData j →
    numData < L.burst_len ∧ j ≤ numData
  ended : s.loop.pc = .done → (L.chs 0).mode = .FUNC_MODE → ∀ c < L.p.num_channels,
    s.loop.sched.frame_idx c = (L.chs c).words L.p

/-- A FIFO that is ready for a burst or more at the end is ready for a burst. -/
def Coherent : Prop :=
  ∀ x c n, L.burst_len ≤ n → L.resReady x c n = true → L.burstReady x c = true

variable {L} {m m' : MemProc} {x x' : σ} {s t : Rounds σ}

/-! ### One step -/

/-- A statement that reads the shift register turns the window, any other leaves it. -/
theorem step_window (h : L.step m x = some (m', x')) (hI : L.Inv m) :
    (m.visit = none ∧ m'.sched.window = m.sched.window)
      ∨ ∃ c, m.visit = some c ∧ Turn c m.sched.window m'.sched.window := by
  obtain ⟨sched, pc⟩ := m
  have hsched : sched.Inv L.p.num_channels L.numWords := hI.sched
  cases pc with
  | head =>
      simp only [step] at h
      by_cases hzero : sched.num_valid_channels = 0
      · rw [if_pos hzero, Option.some.injEq, Prod.mk.injEq] at h
        obtain ⟨rfl, rfl⟩ := h
        exact Or.inl ⟨if_pos hzero, rfl⟩
      · refine Or.inr ⟨sched.ch_id, if_neg hzero, ?_⟩
        rw [if_neg hzero] at h
        rw [hsched.window_eq hzero]
        split at h <;> simp only [Option.some.injEq, Prod.mk.injEq] at h <;> obtain ⟨rfl, rfl⟩ := h
        · exact .drop _
        · show Turn _ _ (sched.serve sched.ch_id).window
          rw [hsched.serve_window hzero]
          exact .keep _
  | done => simp [step] at h
  | _ =>
      refine Or.inl ⟨rfl, ?_⟩
      simp only [step] at h
      first
        | (obtain ⟨rfl, rfl⟩ := Prod.mk.inj (Option.some.inj h)
           rfl)
        | (split at h <;> obtain ⟨rfl, rfl⟩ := Prod.mk.inj (Option.some.inj h) <;> rfl)

theorem Inv.window_of_visit {c : Nat} (hI : L.Inv m) (hvisit : m.visit = some c) :
    ∃ w, m.sched.window = w ++ [c] := by
  obtain ⟨sched, pc⟩ := m
  cases pc with
  | head =>
      by_cases hzero : sched.num_valid_channels = 0
      · simp [MemProc.visit, hzero] at hvisit
      · obtain rfl : sched.ch_id = c := by simpa [MemProc.visit, hzero] using hvisit
        exact ⟨_, hI.sched.window_eq hzero⟩
  | _ => cases hvisit

/-- The last loop of a pass is entered from the second test. -/
theorem step_to_residual {ch_id numData j : Nat} (h : L.step m x = some (m', x'))
    (hpc' : m'.pc = .residual ch_id numData j) :
    m.pc = .resTest ch_id numData ∧ L.resReady x ch_id numData = true
      ∨ ∃ i, m.pc = .residual ch_id numData i := by
  obtain ⟨sched, pc⟩ := m
  cases pc with
  | done => simp [step] at h
  | resTest c n =>
      simp only [step] at h
      split at h <;> obtain ⟨rfl, rfl⟩ := Prod.mk.inj (Option.some.inj h) <;> cases hpc'
      rename_i hready
      exact Or.inl ⟨rfl, hready⟩
  | residual c n i =>
      simp only [step] at h
      split at h <;> obtain ⟨rfl, rfl⟩ := Prod.mk.inj (Option.some.inj h) <;> cases hpc'
      exact Or.inr ⟨i, rfl⟩
  | start =>
      obtain ⟨rfl, rfl⟩ := Prod.mk.inj (Option.some.inj h)
      dsimp only at hpc'
      split at hpc' <;> cases hpc'
  | head =>
      simp only [step] at h
      repeat' split at h
      all_goals
        obtain ⟨rfl, rfl⟩ := Prod.mk.inj (Option.some.inj h)
        cases hpc'
  | _ =>
      simp only [step] at h
      split at h <;> obtain ⟨rfl, rfl⟩ := Prod.mk.inj (Option.some.inj h) <;> cases hpc'

def slack (burst_len : Nat) : MemPc → Nat
  | .start => 2
  | .head => 1
  | .burstTest _ _ => burst_len + 3
  | .resTest _ _ => burst_len + 2
  | .burst _ j => burst_len - j + 2
  | .residual _ numData j => numData - j + 2
  | .done => 0

structure RoundInv (L : MemLoop σ) (s : Rounds σ) : Prop where
  loop : L.Inv s.loop
  gap : ∀ ch_id numData, s.loop.pc = .resTest ch_id numData → L.burst_len ≤ numData →
    L.resReady s.io ch_id numData = false
  short : ∀ ch_id numData j, s.loop.pc = .residual ch_id numData j → numData < L.burst_len

theorem roundInv_enter (x : σ) : L.RoundInv (L.enter x) :=
  ⟨L.inv_start, by simp [enter, start], by simp [enter, start]⟩

/-- The second test lets fewer words pass than a burst. -/
theorem RoundInv.lt_of_ready (hI : L.RoundInv s) {ch_id numData : Nat}
    (hpc : s.loop.pc = .resTest ch_id numData) (hready : L.resReady s.io ch_id numData = true) :
    numData < L.burst_len := by
  by_contra hge
  have hnot := hI.gap ch_id numData hpc (by omega)
  rw [hready] at hnot
  cases hnot

theorem RoundInv.not_wraps (hI : L.RoundInv s) (hB : L.burst_len ≤ 128) :
    ¬ L.Wraps s.loop s.io := by
  rintro ⟨ch_id, numData, hpc, hready, hge⟩
  have := hI.lt_of_ready hpc hready
  omega

theorem RoundInv.step (hcoh : L.Coherent) (hB : L.burst_len ≤ 128) (l : RoundLabel σ)
    (s s' : Rounds σ) (hI : L.RoundInv s) (hC : L.Steady l s) (h : L.rounds.step l s = some s') :
    L.RoundInv s' := by
  cases l with
  | loop =>
      obtain ⟨⟨m', x'⟩, hstep, rfl⟩ := Option.map_eq_some_iff.mp h
      refine ⟨(step_spec hstep (hI.not_wraps hB) hI.loop).1, ?_, ?_⟩
      · intro ch_id numData hpc hge
        obtain ⟨rfl, hburst⟩ := step_to_resTest hstep hpc
        exact Bool.eq_false_iff.mpr fun hready => hburst ⟨hge, hcoh _ _ _ hge hready⟩
      · intro ch_id numData j hpc
        rcases step_to_residual hstep hpc with ⟨htest, hready⟩ | ⟨i, hpc'⟩
        · exact hI.lt_of_ready htest hready
        · exact hI.short _ _ _ hpc'
  | others x =>
      cases h
      exact ⟨hI.loop, hC, hI.short⟩

theorem roundInv_of_run (hcoh : L.Coherent) (hB : L.burst_len ≤ 128)
    (hrun : L.rounds.RunIf L.Steady s t) (hI : L.RoundInv s) : L.RoundInv t :=
  hrun.invariant (RoundInv.step hcoh hB) hI

/-- Each statement takes one of those that are left, and a visit makes room for a pass. -/
theorem step_slack (hB : L.burst_len ≤ 128) (hI : L.RoundInv s)
    (h : L.step s.loop s.io = some (m', x')) :
    slack L.burst_len m'.pc + 1
      ≤ slack L.burst_len s.loop.pc + (L.burst_len + 3) * s.loop.visit.toList.length := by
  obtain ⟨⟨sched, pc⟩, x, visits, steps⟩ := s
  cases pc with
  | done => simp [step] at h
  | start =>
      obtain ⟨rfl, rfl⟩ := Prod.mk.inj (Option.some.inj h)
      dsimp only
      split <;> simp only [slack] <;> omega
  | head =>
      simp only [step] at h
      by_cases hzero : sched.num_valid_channels = 0
      · rw [if_pos hzero] at h
        obtain ⟨rfl, rfl⟩ := Prod.mk.inj (Option.some.inj h)
        simp [slack]
      · have hvisit : MemProc.visit ⟨sched, .head⟩ = some sched.ch_id := if_neg hzero
        rw [if_neg hzero] at h
        rw [hvisit]
        split at h <;> obtain ⟨rfl, rfl⟩ := Prod.mk.inj (Option.some.inj h)
        · simp only [slack, Option.toList_some, List.length_singleton]
          omega
        · simp only [slack, Option.toList_some, List.length_singleton]
          omega
  | burstTest c n =>
      simp only [step] at h
      split at h <;> obtain ⟨rfl, rfl⟩ := Prod.mk.inj (Option.some.inj h)
      · simp only [slack]
        omega
      · simp only [slack]
        omega
  | resTest c n =>
      simp only [step] at h
      split at h <;> rename_i hready <;> obtain ⟨rfl, rfl⟩ := Prod.mk.inj (Option.some.inj h)
      · have hlt := hI.lt_of_ready rfl hready
        simp only [slack]
        omega
      · simp only [slack]
        omega
  | burst c j =>
      simp only [step] at h
      split at h <;> obtain ⟨rfl, rfl⟩ := Prod.mk.inj (Option.some.inj h)
      · simp only [slack]
        omega
      · simp only [slack]
        omega
  | residual c n j =>
      have hlt := hI.short c n j rfl
      simp only [step] at h
      split at h <;> obtain ⟨rfl, rfl⟩ := Prod.mk.inj (Option.some.inj h)
      · -- below 256 words the counter does not wrap
        have hmod : (j + 1) % 2 ^ 8 = j + 1 := Nat.mod_eq_of_lt (by omega)
        simp only [slack, hmod]
        omega
      · simp only [slack]
        omega

/-! ### Runs -/

/-- What a run reads, and what that does to the window. -/
theorem turns_of_run (hcoh : L.Coherent) (hB : L.burst_len ≤ 128) (hI : L.RoundInv s)
    (hrun : L.rounds.RunIf L.Steady s t) :
    ∃ vs, t.visits = vs ++ s.visits ∧ Turns s.loop.sched.window vs t.loop.sched.window
      ∧ t.steps + slack L.burst_len t.loop.pc
        ≤ s.steps + slack L.burst_len s.loop.pc + (L.burst_len + 3) * vs.length := by
  induction hrun with
  | refl => exact ⟨[], rfl, .refl, by simp⟩
  | @tail t u l hprev _ hstep ih =>
      obtain ⟨vs, hvisits, hturns, hsteps⟩ := ih
      have hI' := roundInv_of_run hcoh hB hprev hI
      cases l with
      | others x =>
          cases hstep
          exact ⟨vs, hvisits, hturns, hsteps⟩
      | loop =>
          obtain ⟨⟨m', x'⟩, hstep', rfl⟩ := Option.map_eq_some_iff.mp hstep
          have hslack := step_slack hB hI' hstep'
          refine ⟨t.loop.visit.toList ++ vs, ?_, ?_, ?_⟩
          · show _ ++ t.visits = _
            rw [hvisits, List.append_assoc]
          · rcases step_window hstep' hI'.loop with ⟨hnone, hwindow⟩ | ⟨c, hvisit, hturn⟩
            · rw [hnone, hwindow]
              exact hturns
            · rw [hvisit]
              exact hturns.tail hturn
          · rw [List.length_append, Nat.mul_add]
            show t.steps + 1 + slack L.burst_len m'.pc ≤ _
            omega

/-- The invariant gives every promise. -/
theorem RoundInv.roundRobin (hcoh : L.Coherent) (hB : L.burst_len ≤ 128) (hlimit : L.FrameLimit)
    (hI : L.RoundInv s) : L.RoundRobin s := by
  have hwords : ∀ c < L.p.num_channels, L.numWords c = (L.chs c).words L.p := by
    intro c hc
    have hle := Nat.le_mul_of_pos_right (L.chs c).numFrames L.p.word_pos
    exact numWords_eq (by have := hlimit c hc; omega)
  refine ⟨fun _ => hI.loop.sched.nodup, ?_, ?_, ?_, ?_, ?_⟩
  · intro _ c hc hlt
    by_contra hout
    have := hI.loop.sched.finished c hc hout
    have := hwords c hc
    omega
  · intro t c vs hrun hvisit hvisit' hvisits hfresh
    have hI' := roundInv_of_run hcoh hB hrun hI
    obtain ⟨vs', hvisits', hturns, -⟩ := turns_of_run hcoh hB hI hrun
    obtain rfl : vs' = vs ++ [c] := by
      rw [hvisits, ← List.singleton_append, ← List.append_assoc] at hvisits'
      exact (List.append_cancel_right hvisits').symm
    obtain ⟨w, hw⟩ := hI.loop.window_of_visit hvisit
    obtain ⟨w', hw'⟩ := hI'.loop.window_of_visit hvisit'
    have hnodup := hI.loop.sched.nodup
    rw [hw] at hnodup hturns ⊢
    rw [hw'] at hturns
    obtain rfl := Turns.between hnodup hturns hfresh
    refine ⟨(List.nodup_append.mp hnodup).1, fun d => ?_⟩
    constructor
    · intro hd
      refine ⟨by simp [hd], ?_⟩
      rintro rfl
      exact hfresh hd
    · rintro ⟨hd, hne⟩
      simpa [hne] using hd
  · intro t hrun hhead hsteps
    obtain ⟨vs, hvisits, hturns, hslack⟩ := turns_of_run hcoh hB hI hrun
    refine ⟨vs, hvisits, fun c hc => hturns.mem_of_length_le ?_ hc⟩
    rw [hI.loop.sched.length_window]
    by_contra hlt
    have hmul : (L.burst_len + 3) * (vs.length + 1)
        ≤ (L.burst_len + 3) * s.loop.sched.num_valid_channels := Nat.mul_le_mul_left _ (by omega)
    rw [Nat.mul_succ] at hmul
    rw [hhead] at hslack
    change _ ≤ s.steps + 1 + _ at hslack
    omega
  · intro ch_id numData j hpc
    have hp : L.PcInv s.loop := hI.loop.pc
    simp only [PcInv, hpc] at hp
    exact ⟨hI.short ch_id numData j hpc, hp.2.2.1⟩
  · intro hpc hmode c hc
    rw [← hwords c hc]
    have hmoved := moved_of_done hmode hI.loop hpc hc
    simpa [moved, inFlight, hpc] using hmoved

theorem roundRobin_of_run (hcoh : L.Coherent) (hB : L.burst_len ≤ 128) (hlimit : L.FrameLimit)
    {x : σ} (hrun : L.rounds.RunIf L.Steady (L.enter x) s) : L.RoundRobin s :=
  (roundInv_of_run hcoh hB hrun (roundInv_enter x)).roundRobin hcoh hB hlimit

theorem exists_rounds {C : RoundLabel σ → Rounds σ → Prop} (hC : ∀ s, C .loop s)
    (hrun : L.lts.Run (m, x) (m', x')) (visits : List Nat) (steps : Nat) :
    ∃ visits' steps', L.rounds.RunIf C ⟨m, x, visits, steps⟩ ⟨m', x', visits', steps'⟩ := by
  suffices h : ∀ q : MemProc × σ, L.lts.Run (m, x) q →
      ∃ visits' steps', L.rounds.RunIf C ⟨m, x, visits, steps⟩ ⟨q.1, q.2, visits', steps'⟩ from
    h _ hrun
  intro q hq
  induction hq with
  | refl => exact ⟨visits, steps, .refl⟩
  | @tail t u l _ _ hstep ih =>
      obtain ⟨visits', steps', hrun'⟩ := ih
      change L.step t.1 t.2 = some u at hstep
      exact ⟨t.1.visit.toList ++ visits', steps' + 1, hrun'.tail .loop (hC _)
        (by simp [rounds, hstep])⟩

end MemLoop

/-! ### The two loops -/

open MemLoop

theorem Transmit.coherent (T : Transmit) : T.loadMemories.Coherent := by
  intro x c n hle hready
  have hroom : (x.to_aie_strm c).length + n ≤ T.capacity := of_decide_eq_true hready
  exact decide_eq_true (Nat.le_trans (Nat.add_le_add_left hle _) hroom)

theorem Receive.coherent (T : Receive) : T.storeMemories.Coherent := by
  intro x c n hle hready
  have hlen : (x.from_aie_strm c).length = n := of_decide_eq_true hready
  refine decide_eq_true ?_
  rw [hlen]
  exact hle

/-- Both loops are round robin, as long as no FIFO becomes ready for a burst or more between the two
tests of a pass. -/
theorem scheduler_ok (T : Transmit) (R : Receive) :
    (∀ (x : TxIO) (s : Rounds TxIO), T.burst_len ≤ 128 → T.loadMemories.FrameLimit →
      T.loadMemories.rounds.RunIf T.loadMemories.Steady (T.loadMemories.enter x) s →
      T.loadMemories.RoundRobin s)
    ∧ ∀ (x : RxIO) (s : Rounds RxIO), R.burst_len ≤ 128 → R.storeMemories.FrameLimit →
      R.storeMemories.rounds.RunIf R.storeMemories.Steady (R.storeMemories.enter x) s →
      R.storeMemories.RoundRobin s :=
  ⟨fun _ _ hB hlimit hrun => roundRobin_of_run T.coherent hB hlimit hrun,
    fun _ _ hB hlimit hrun => roundRobin_of_run R.coherent hB hlimit hrun⟩

def fourBursts : Transmit where
  p := solePlatform
  burst_len := 128
  chs := ⟨fun _ => ⟨.FUNC_MODE, 512, 1, 0, 0⟩, fun _ => ⟨.FUNC_MODE, 512, 1, 0, 0⟩⟩
  mem := []
  axiDepth _ := 256

def fourBurstsBack : Receive where
  p := solePlatform
  burst_len := 128
  chs := fourBursts.chs
  mem := []
  beats _ := []
  axiDepth _ := 256
  axi_pos _ := by decide

theorem fourBursts_limit : fourBursts.loadMemories.FrameLimit := by
  intro c _
  show 512 * 4 ≤ 2 ^ 30
  decide

theorem scheduler_ok_fourBursts :
    (∃ s : Rounds TxIO, s.loop.pc = .burstTest 0 512 ∧ s.visits = [0]
      ∧ fourBursts.loadMemories.RoundRobin s)
    ∧ ∃ s : Rounds RxIO, s.loop.pc = .burstTest 0 512 ∧ s.visits = [0]
      ∧ fourBurstsBack.storeMemories.RoundRobin s := by
  obtain ⟨hload, hstore⟩ := scheduler_ok fourBursts fourBurstsBack
  constructor
  · exact ⟨_, rfl, rfl, hload fourBursts.init.io _ (Nat.le_refl _) fourBursts_limit
      (.head (l := .loop) trivial rfl (.single (l := .loop) trivial rfl))⟩
  · exact ⟨_, rfl, rfl, hstore fourBurstsBack.init.io _ (Nat.le_refl _) fourBursts_limit
      (.head (l := .loop) trivial rfl (.single (l := .loop) trivial rfl))⟩

/-- The other processes take words out of the FIFOs, as `feed` does. -/
def Transmit.Drains : RoundLabel TxIO → Rounds TxIO → Prop
  | .loop, _ => True
  | .others io, s => ∃ strm, io = { s.io with to_aie_strm := strm }
      ∧ ∀ c, strm c <:+ s.io.to_aie_strm c

/-- Not beside every `feed`: the FIFO is full at the first test and empty at the second. -/
theorem not_scheduler_ok : ¬ ∀ (T : Transmit) (s : Rounds TxIO),
    1 ≤ T.burst_len → T.burst_len ≤ 128 → T.loadMemories.FrameLimit →
    T.loadMemories.rounds.RunIf Transmit.Drains (T.loadMemories.enter T.init.io) s →
    T.loadMemories.RoundRobin s := by
  intro hall
  obtain ⟨x, hrun, -, -⟩ := Transmit.fills_of_512 (T := fourBursts) rfl (by decide) rfl rfl rfl
  obtain ⟨visits, steps, hrounds⟩ :=
    exists_rounds (C := Transmit.Drains) (fun _ => trivial) hrun [] 0
  have hdrain := hrounds.tail (RoundLabel.others { x with to_aie_strm := fun _ => [] })
    ⟨fun _ => [], rfl, fun _ => List.nil_suffix⟩ rfl
  have hlast := hdrain.tail RoundLabel.loop trivial rfl
  have hok :=
    (hall fourBursts _ (by decide) (by decide) fourBursts_limit hlast).residual 0 256 0 rfl
  exact absurd hok.1 (by decide)

end AieTestHarness
