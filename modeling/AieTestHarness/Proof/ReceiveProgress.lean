import AieTestHarness.Proof.Receive
import Mathlib.Algebra.Order.BigOperators.Group.Finset

/-!
# Functional mode from the AIE: no run gets stuck

From every reachable state the run can be completed. With `store_memories` at the head of its loop,
`get` and the AIE fill the FIFO of an unfinished channel until it is ready, since the FIFO holds two
bursts and `get` never puts more words than are expected; and `store_memories`, on its own, gets
round to that channel. Each round moves words, so there is a last one.
-/

namespace AieTestHarness

open Slices

section Rank

variable {p : Kernel} {ch : Channel} {bs : List Beat} {pc pc' : GetPc} {strm strm' todo : List Beat}
  {fifo out : List MemWord} {moved : Nat}

def wordRank (p : Kernel) : Nat := p.memRatio + 3

def GetPc.rank (p : Kernel) (ch : Channel) : GetPc → Nat
  | .wait count => count + 1 + (ch.numFrames / p.memRatio * wordRank p + wordRank p)
  | .head i => (ch.numFrames / p.memRatio - i) * wordRank p + wordRank p
  | .word i _ j => (ch.numFrames / p.memRatio - (i + 1)) * wordRank p + wordRank p
      + (p.memRatio - j) + 2
  | .put i _ => (ch.numFrames / p.memRatio - (i + 1)) * wordRank p + wordRank p + 1
  | .rest _ j => ch.numFrames % p.memRatio - j + 2
  | .putRest _ => 1
  | .done => 0

theorem rank_head_succ {i : Nat} (hi : i < ch.numFrames / p.memRatio) :
    (ch.numFrames / p.memRatio - i) * wordRank p
      = (ch.numFrames / p.memRatio - (i + 1)) * wordRank p + wordRank p := by
  rw [← Nat.succ_mul]
  congr 1
  omega

/-- Every statement brings `get` nearer to its end. -/
theorem rank_lt_of_getStep {room : Bool} (hin : pc.InRange p ch)
    (h : getStep p ch room strm pc = some (pc', strm', out)) : pc'.rank p ch < pc.rank p ch := by
  have hR : p.memRatio ≤ 16 := p.ratio_le
  have hremlt := Nat.mod_lt ch.numFrames p.memRatio_pos
  have hK : wordRank p = p.memRatio + 3 := rfl
  cases pc with
  | wait count =>
      cases count with
      | zero =>
          simp only [getStep, Option.some.injEq, Prod.mk.injEq] at h
          obtain ⟨rfl, -⟩ := h
          simp only [GetPc.rank, Nat.sub_zero]
          omega
      | succ count =>
          simp only [getStep, Option.some.injEq, Prod.mk.injEq] at h
          obtain ⟨rfl, -⟩ := h
          simp only [GetPc.rank]
          omega
  | head i =>
      simp only [getStep] at h
      split at h
      · rename_i hlt
        simp only [Option.some.injEq, Prod.mk.injEq] at h
        obtain ⟨rfl, -⟩ := h
        have := rank_head_succ (p := p) hlt
        simp only [GetPc.rank]
        omega
      · split at h <;> simp only [Option.some.injEq, Prod.mk.injEq] at h <;> obtain ⟨rfl, -⟩ :=
          h <;> simp only [GetPc.rank] <;> omega
  | word i data j =>
      simp only [getStep] at h
      split at h
      · cases strm with
        | nil => cases h
        | cons tmp strm =>
            simp only [Option.some.injEq, Prod.mk.injEq] at h
            obtain ⟨rfl, -⟩ := h
            simp only [GetPc.rank]
            omega
      · simp only [Option.some.injEq, Prod.mk.injEq] at h
        obtain ⟨rfl, -⟩ := h
        simp only [GetPc.rank]
        omega
  | put i data =>
      simp only [getStep] at h
      split at h
      · simp only [Option.some.injEq, Prod.mk.injEq] at h
        obtain ⟨rfl, -⟩ := h
        simp only [GetPc.rank]
        omega
      · cases h
  | rest data j =>
      simp only [getStep] at h
      split at h
      · rename_i hlt
        rw [Nat.mod_eq_of_lt (show j + 1 < 2 ^ 5 by omega)] at h
        cases strm with
        | nil => cases h
        | cons tmp strm =>
            simp only [Option.some.injEq, Prod.mk.injEq] at h
            obtain ⟨rfl, -⟩ := h
            simp only [GetPc.rank]
            omega
      · simp only [Option.some.injEq, Prod.mk.injEq] at h
        obtain ⟨rfl, -⟩ := h
        simp only [GetPc.rank]
        omega
  | putRest data =>
      simp only [getStep] at h
      split at h
      · simp only [Option.some.injEq, Prod.mk.injEq] at h
        obtain ⟨rfl, -⟩ := h
        simp only [GetPc.rank]
        omega
      · cases h
  | done => simp [getStep] at h

/-- With a stream word there and room in the FIFO, `get` has returned or can go on. -/
theorem getStep_enabled_of_cons (p : Kernel) (ch : Channel) (pc : GetPc) (tmp : Beat)
    (strm : List Beat) :
    pc = .done ∨ ∃ pc' strm' out, getStep p ch true (tmp :: strm) pc = some (pc', strm', out) := by
  cases pc with
  | wait count => cases count <;> exact Or.inr ⟨_, _, _, rfl⟩
  | head i =>
      refine Or.inr ?_
      simp only [getStep]
      split
      · exact ⟨_, _, _, rfl⟩
      · split <;> exact ⟨_, _, _, rfl⟩
  | word i data j =>
      refine Or.inr ?_
      simp only [getStep]
      split <;> exact ⟨_, _, _, rfl⟩
  | put i data => exact Or.inr ⟨_, _, _, rfl⟩
  | rest data j =>
      refine Or.inr ?_
      simp only [getStep]
      split <;> exact ⟨_, _, _, rfl⟩
  | putRest data => exact Or.inr ⟨_, _, _, rfl⟩
  | done => exact Or.inl rfl

/-- A stream that runs dry before the last frame is one the AIE has more words for. -/
theorem todo_ne_nil (hI : RxFlow p ch bs pc [] todo fifo moved) (hlt : pc.reads p ch < bs.length) :
    todo ≠ [] := by
  have hstrm := hI.strm_eq
  rw [List.nil_append] at hstrm
  rw [hstrm]
  simpa using hlt

/-- With room in the FIFO, `get` has returned or can go on, if need be after the AIE has. -/
theorem getStep_enabled (hI : RxFlow p ch bs pc strm todo fifo moved)
    (henough : ch.numFrames ≤ bs.length) :
    pc = .done ∨ (∃ pc' strm' out, getStep p ch true strm pc = some (pc', strm', out))
      ∨ strm = [] ∧ todo ≠ [] := by
  have hdiv := Nat.div_add_mod ch.numFrames p.memRatio
  rw [Nat.mul_comm] at hdiv
  cases pc with
  | wait count => cases count <;> exact Or.inr (Or.inl ⟨_, _, _, rfl⟩)
  | head i =>
      refine Or.inr (Or.inl ?_)
      simp only [getStep]
      split
      · exact ⟨_, _, _, rfl⟩
      · split <;> exact ⟨_, _, _, rfl⟩
  | word i data j =>
      obtain ⟨hi, -, -⟩ := hI.ok
      have hfull := full_words_mul_le (p := p) hi
      rw [Nat.succ_mul] at hfull
      refine Or.inr ?_
      simp only [getStep]
      split
      · cases strm with
        | nil => exact Or.inr ⟨rfl, todo_ne_nil hI (show i * p.memRatio + j < _ by omega)⟩
        | cons tmp strm => exact Or.inl ⟨_, _, _, rfl⟩
      · exact Or.inl ⟨_, _, _, rfl⟩
  | put i data => exact Or.inr (Or.inl ⟨_, _, _, rfl⟩)
  | rest data j =>
      refine Or.inr ?_
      simp only [getStep]
      split
      · cases strm with
        | nil =>
            exact Or.inr ⟨rfl, todo_ne_nil hI
              (show ch.numFrames / p.memRatio * p.memRatio + j < _ by omega)⟩
        | cons tmp strm => exact Or.inl ⟨_, _, _, rfl⟩
      · exact Or.inl ⟨_, _, _, rfl⟩
  | putRest data => exact Or.inr (Or.inl ⟨_, _, _, rfl⟩)
  | done => exact Or.inl rfl

end Rank

namespace Receive

open MemLoop

variable {T : Receive} {s s' : RxState}

theorem run_store {m m' : MemProc} {x x' : RxIO}
    (hrun : T.storeMemories.lts.Run (m, x) (m', x')) :
    T.lts.RunIf NoWrap { s with store := m, io := x } { s with store := m', io := x' } := by
  suffices h : ∀ q : MemProc × RxIO, T.storeMemories.lts.Run (m, x) q →
      T.lts.RunIf NoWrap { s with store := m, io := x } { s with store := q.1, io := q.2 } from
    h _ hrun
  intro q hq
  induction hq with
  | refl => exact .refl
  | tail l _ _ hstep ih =>
      refine .tail .store ih trivial ?_
      change T.storeMemories.step _ _ = _ at hstep
      simp [lts, hstep]

/-- The store loop is not between its two tests. -/
def Resting (s : RxState) : Prop := ∀ ch_id numData, s.store.pc ≠ .resTest ch_id numData

def FlowAt (T : Receive) (c : Nat) (s : RxState) : Prop :=
  RxFlow T.p (T.chs.from_aie_ch c) (T.beats c) (s.get c) (s.axi c) (s.todo c)
    (s.io.from_aie_strm c) (moved s.store c)

/-- What `get` and the AIE reach on channel `c` with everything else at rest, along steps that meet
`C`. -/
structure GetOnly (T : Receive) (C : RxLabel → RxState → Prop) (c : Nat) (s s' : RxState) :
    Prop where
  run : T.lts.RunIf C s s'
  store_eq : s'.store = s.store
  empty_eq : s'.io.empty = s.io.empty
  get_eq : ∀ c', c' ≠ c → s'.get c' = s.get c'
  flow : T.FlowAt c s → T.FlowAt c s'

variable {C : RxLabel → RxState → Prop} {c : Nat}

theorem GetOnly.refl : T.GetOnly C c s s := ⟨.refl, rfl, rfl, fun _ _ => rfl, id⟩

theorem GetOnly.trans {s₁ s₂ s₃ : RxState} (h₁ : T.GetOnly C c s₁ s₂) (h₂ : T.GetOnly C c s₂ s₃) :
    T.GetOnly C c s₁ s₃ :=
  ⟨h₁.run.trans h₂.run, h₂.store_eq.trans h₁.store_eq, h₂.empty_eq.trans h₁.empty_eq,
    fun c' hc' => (h₂.get_eq c' hc').trans (h₁.get_eq c' hc'), fun h => h₂.flow (h₁.flow h)⟩

theorem getOnly_get (hs : T.Fits) (hc : c < T.p.num_channels) (hC : C (.get c) s) {pc : GetPc}
    {strm : List Beat} {out : List MemWord}
    (h : getStep T.p (T.chs.from_aie_ch c) ((s.io.from_aie_strm c).length < T.capacity) (s.axi c)
      (s.get c) = some (pc, strm, out)) :
    ∃ s', T.GetOnly C c s s' ∧ s'.get c = pc := by
  have hstep : T.lts.step (.get c) s = some
      { s with
        io := { s.io with
          from_aie_strm := Function.update s.io.from_aie_strm c (s.io.from_aie_strm c ++ out) }
        get := Function.update s.get c pc
        axi := Function.update s.axi c strm } := by
    simp only [lts, if_pos hc, getChannel, h, Option.map_some]
  refine ⟨_, ⟨.single hC hstep, rfl, rfl, fun c' hc' => Function.update_of_ne hc' _ _, ?_⟩,
    Function.update_self _ _ _⟩
  intro hflow
  simpa only [FlowAt, Function.update_self] using rxFlow_getStep (hs.sized c hc) hflow h

theorem getOnly_aie (hc : c < T.p.num_channels) (hC : C (.aie c) s) (hstrm : s.axi c = [])
    (htodo : s.todo c ≠ []) :
    ∃ s', T.GetOnly C c s s' ∧ s'.get c = s.get c ∧ s'.axi c ≠ [] ∧ s'.io = s.io := by
  obtain ⟨b, rest, hcons⟩ := List.exists_cons_of_ne_nil htodo
  have hstep : T.lts.step (.aie c) s = some
      { s with
        axi := Function.update s.axi c (s.axi c ++ [b])
        todo := Function.update s.todo c rest } := by
    simp only [lts, if_pos hc, deliver, hcons]
    rw [if_pos (by rw [hstrm]; exact T.axi_pos c)]
  refine ⟨_, ⟨.single hC hstep, rfl, rfl, fun _ _ => rfl, ?_⟩, rfl, by simp, rfl⟩
  intro hflow
  rw [FlowAt, hcons] at hflow
  simpa only [FlowAt, Function.update_self] using hflow.deliver

/-- The AIE has put a stream word on the AXI stream, or has none left. -/
theorem exists_fed (hc : c < T.p.num_channels) (hC : C (.aie c) s) :
    ∃ s', T.GetOnly C c s s' ∧ s'.io = s.io ∧ s'.get c = s.get c ∧
      ¬ (s'.axi c = [] ∧ s'.todo c ≠ []) := by
  by_cases hdry : s.axi c = [] ∧ s.todo c ≠ []
  · obtain ⟨s', hrun, hget, haxi, hio⟩ := getOnly_aie hc hC hdry.1 hdry.2
    exact ⟨s', hrun, hio, hget, fun h => haxi h.1⟩
  · exact ⟨s, .refl, rfl, rfl, hdry⟩

/-- The condition lets `get` and the AIE go on as long as `store_memories` rests. -/
def Lets (C : RxLabel → RxState → Prop) (c : Nat) (store : MemProc) : Prop :=
  ∀ s, s.store = store → C (.get c) s ∧ C (.aie c) s

theorem Resting.lets (h : Resting s) : Lets NoWrap c s.store :=
  fun _ hstore => ⟨fun _ hpc => absurd (hstore ▸ hpc) (h _ _), trivial⟩

theorem exists_get_step (hs : T.Fits) (hc : c < T.p.num_channels) (hflow : T.FlowAt c s)
    (hC : Lets C c s.store) (hdone : s.get c ≠ .done)
    (hroom : (s.io.from_aie_strm c).length < T.capacity) :
    ∃ s', T.GetOnly C c s s' ∧ (s'.get c).rank T.p (T.chs.from_aie_ch c)
      < (s.get c).rank T.p (T.chs.from_aie_ch c) := by
  obtain ⟨s₁, hrun₁, hio, hget, hdry⟩ := exists_fed hc (hC s rfl).2
  have hflow₁ := hrun₁.flow hflow
  have hroom₁ : decide ((s₁.io.from_aie_strm c).length < T.capacity) = true := by
    rw [hio]
    exact decide_eq_true hroom
  rcases getStep_enabled hflow₁ (hs.enough c hc) with h | ⟨pc, strm, out, h⟩ | h
  · exact absurd (hget ▸ h) hdone
  · obtain ⟨s', hrun', hget'⟩ := getOnly_get hs hc (hC s₁ hrun₁.store_eq).1 (hroom₁ ▸ h)
    refine ⟨s', hrun₁.trans hrun', ?_⟩
    rw [hget', ← hget]
    exact rank_lt_of_getStep hflow₁.ok.inRange h
  · exact absurd h hdry

/-- `get` and the AIE go on until `get` has returned or its FIFO is full. -/
theorem run_get (hs : T.Fits) (hc : c < T.p.num_channels) (n : Nat) :
    ∀ s : RxState, T.FlowAt c s → Lets C c s.store →
      (s.get c).rank T.p (T.chs.from_aie_ch c) ≤ n →
      ∃ s', T.GetOnly C c s s' ∧
        (s'.get c = .done ∨ T.capacity ≤ (s'.io.from_aie_strm c).length) := by
  induction n with
  | zero =>
      intro s hflow hC hrank
      by_cases hstop : s.get c = .done ∨ T.capacity ≤ (s.io.from_aie_strm c).length
      · exact ⟨s, .refl, hstop⟩
      · rw [not_or, not_le] at hstop
        obtain ⟨s', -, hlt⟩ := exists_get_step hs hc hflow hC hstop.1 hstop.2
        omega
  | succ n ih =>
      intro s hflow hC hrank
      by_cases hstop : s.get c = .done ∨ T.capacity ≤ (s.io.from_aie_strm c).length
      · exact ⟨s, .refl, hstop⟩
      · rw [not_or, not_le] at hstop
        obtain ⟨s₁, hrun₁, hlt⟩ := exists_get_step hs hc hflow hC hstop.1 hstop.2
        obtain ⟨s', hrun', hstop'⟩ := ih s₁ (hrun₁.flow hflow)
          (by rw [hrun₁.store_eq]; exact hC) (by omega)
        exact ⟨s', hrun₁.trans hrun', hstop'⟩

theorem run_gets (hs : T.Fits) (hI : T.Inv s) (hpc : Resting s)
    (hall : ∀ c < T.p.num_channels, moved s.store c = T.storeMemories.numWords c) (n : Nat)
    (hn : n ≤ T.p.num_channels) :
    ∃ s', T.lts.RunIf NoWrap s s' ∧ s'.store = s.store ∧ ∀ c < n, s'.get c = .done := by
  induction n with
  | zero => exact ⟨s, .refl, rfl, fun c hc => absurd hc (Nat.not_lt_zero c)⟩
  | succ n ih =>
      obtain ⟨s₁, hrun₁, hstore₁, hget₁⟩ := ih (by omega)
      have hI₁ := inv_of_run hs hI hrun₁
      obtain ⟨s₂, hrun₂, hstop⟩ := run_get hs (show n < T.p.num_channels by omega) _ s₁
        (hI₁.flow n (by omega)) (by rw [hstore₁]; exact hpc.lets) (Nat.le_refl _)
      have hstore₂ : s₂.store = s.store := hrun₂.store_eq.trans hstore₁
      refine ⟨s₂, hrun₁.trans hrun₂.run, hstore₂, ?_⟩
      intro c hc
      by_cases heq : c = n
      · subst heq
        -- the FIFO is empty, so it cannot be full
        have hle := (hrun₂.flow (hI₁.flow c (by omega))).occupancy_le
        have hmoved := hall c (by omega)
        rw [hs.numWords_eq (show c < T.p.num_channels by omega)] at hmoved
        rw [hstore₂, hmoved] at hle
        have hB := hs.burst_pos
        rcases hstop with hdone | hfull
        · exact hdone
        · unfold capacity at hfull
          omega
      · rw [hrun₂.get_eq c heq]
        exact hget₁ c (by omega)

def left (T : Receive) (s : RxState) : Nat :=
  ∑ c ∈ Finset.range T.p.num_channels, (T.storeMemories.numWords c - s.store.sched.frame_idx c)

theorem moved_of_head {sched : Scheduler} (hhead : s.store = ⟨sched, .head⟩) :
    moved s.store = sched.frame_idx := by
  funext c
  simp [moved, inFlight, hhead]

/-- A channel whose `get` has stopped is ready for `store_memories`. -/
theorem ready_of_stopped (hs : T.Fits) (hI : T.Inv s) {sched : Scheduler}
    (hhead : s.store = ⟨sched, .head⟩) (hc : c < T.p.num_channels)
    (hstop : s.get c = .done ∨ T.capacity ≤ (s.io.from_aie_strm c).length) :
    T.storeMemories.Ready s.io c (T.storeMemories.numWords c - sched.frame_idx c) := by
  have hflow := hI.flow c hc
  rw [moved_of_head hhead] at hflow
  rw [hs.numWords_eq hc]
  rcases hstop with hdone | hfull
  · refine Or.inr (decide_eq_true ?_)
    have := hflow.fifo_length
    rw [hdone] at this
    change sched.frame_idx c + _ = (T.chs.from_aie_ch c).words T.p at this
    omega
  · have hle := hflow.occupancy_le
    have hcap : T.capacity = T.burst_len * 2 := rfl
    refine Or.inl ⟨?_, decide_eq_true ?_⟩
    · show T.burst_len ≤ _
      omega
    · omega

theorem run_store_from {sched : Scheduler} {m : MemProc} {x : RxIO}
    (hhead : s.store = ⟨sched, .head⟩)
    (hrun : T.storeMemories.lts.Run (⟨sched, .head⟩, s.io) (m, x)) :
    T.lts.RunIf NoWrap s { s with store := m, io := x } := by
  have := run_store (s := s) hrun
  rwa [← hhead] at this

theorem complete_of_stored (hs : T.Fits) (hI : T.Inv s) {sched : Scheduler}
    (hhead : s.store = ⟨sched, .head⟩)
    (hall : ∀ c < T.p.num_channels, sched.frame_idx c = T.storeMemories.numWords c) :
    ∃ s', T.lts.RunIf NoWrap s s' ∧ T.Complete s' := by
  obtain ⟨s₁, hrun₁, hstore₁, hget₁⟩ := run_gets hs hI (by simp [Resting, hhead])
    (by rw [moved_of_head hhead]; exact hall) _ (Nat.le_refl _)
  have hhead₁ := hstore₁.trans hhead
  have hsched : sched.Inv T.p.num_channels T.storeMemories.numWords := by
    have := hI.store.sched
    rwa [hhead] at this
  obtain ⟨sched', hrun'⟩ := run_to_done (L := T.storeMemories) (x := s₁.io) _ sched rfl
    hsched hall
  exact ⟨_, hrun₁.trans (run_store_from hhead₁ hrun'), rfl, hget₁⟩

theorem exists_round (hs : T.Fits) (hI : T.Inv s) {sched : Scheduler}
    (hhead : s.store = ⟨sched, .head⟩) (hc : c < T.p.num_channels)
    (hlt : sched.frame_idx c < T.storeMemories.numWords c) :
    ∃ s' sched', T.lts.RunIf NoWrap s s' ∧ s'.store = ⟨sched', .head⟩ ∧ T.left s' < T.left s := by
  have hsched : sched.Inv T.p.num_channels T.storeMemories.numWords := by
    have := hI.store.sched
    rwa [hhead] at this
  have hpc : Resting s := by simp [Resting, hhead]
  obtain ⟨s₁, hrun₁, hstop⟩ := run_get hs hc _ s (hI.flow c hc) hpc.lets (Nat.le_refl _)
  have hhead₁ := hrun₁.store_eq.trans hhead
  have hready := ready_of_stopped hs (inv_of_run hs hI hrun₁.run) hhead₁ hc hstop
  have hmem : c ∈ sched.window := by
    by_contra hout
    have := hsched.finished c hc hout
    omega
  obtain ⟨before, after, hwindow⟩ := List.append_of_mem hmem
  obtain ⟨ch, k, sched', y, hk, hch, -, hle, hframe, hrun⟩ := run_until_ready hs.burst_pos
    (hs.restSmall s₁.io) after sched before hsched hwindow hlt hready
  refine ⟨_, sched', hrun₁.run.trans (run_store_from hhead₁ hrun), rfl, ?_⟩
  have hold : s.store.sched.frame_idx = sched.frame_idx := by rw [hhead]
  unfold left
  rw [hold]
  refine Finset.sum_lt_sum ?_ ⟨ch, Finset.mem_range.mpr hch, ?_⟩
  · intro c' _
    show _ - sched'.frame_idx c' ≤ _
    rw [hframe]
    by_cases heq : c' = ch
    · subst heq
      rw [Function.update_self]
      omega
    · rw [Function.update_of_ne heq]
  · show _ - sched'.frame_idx ch < _
    rw [hframe, Function.update_self]
    omega

/-- From the head of `store_memories` the run can be completed. The induction is on the words
left. -/
theorem complete_of_head (hs : T.Fits) (n : Nat) :
    ∀ (s : RxState) (sched : Scheduler), T.Inv s → s.store = ⟨sched, .head⟩ → T.left s ≤ n →
      ∃ s', T.lts.RunIf NoWrap s s' ∧ T.Complete s' := by
  induction n with
  | zero =>
      intro s sched hI hhead hleft
      refine complete_of_stored hs hI hhead ?_
      intro c hc
      by_contra hne
      have hle := hI.store.sched.frame_le c hc
      rw [hhead] at hle
      obtain ⟨s', -, -, -, hlt⟩ := exists_round hs hI hhead hc (lt_of_le_of_ne hle hne)
      omega
  | succ n ih =>
      intro s sched hI hhead hleft
      by_cases hall : ∀ c < T.p.num_channels, sched.frame_idx c = T.storeMemories.numWords c
      · exact complete_of_stored hs hI hhead hall
      · simp only [not_forall] at hall
        obtain ⟨c, hc, hne⟩ := hall
        have hle := hI.store.sched.frame_le c hc
        rw [hhead] at hle
        obtain ⟨s₁, sched₁, hrun₁, hhead₁, hlt⟩ :=
          exists_round hs hI hhead hc (lt_of_le_of_ne hle hne)
        obtain ⟨s', hrun', hdone⟩ := ih s₁ sched₁ (inv_of_run hs hI hrun₁) hhead₁ (by omega)
        exact ⟨s', hrun₁.trans hrun', hdone⟩

/-- Every reachable state has a continuation that completes the run. -/
theorem exists_complete (hs : T.Fits) (hI : T.Inv s) :
    ∃ s', T.lts.RunIf NoWrap s s' ∧ T.Complete s' := by
  have hrest : ∀ ch_id numData, s.store.pc = .resTest ch_id numData →
      T.storeMemories.resReady s.io ch_id numData = true → numData < 2 ^ 8 := by
    intro ch_id numData hpc hready
    by_contra hge
    exact hI.gap ch_id numData hpc (by omega) (of_decide_eq_true hready)
  rcases run_to_head (L := T.storeMemories) hs.mode_eq (hs.restSmall s.io) hrest hI.store with
    hdone | ⟨sched, y, hrun⟩
  · obtain ⟨s', hrun', hstore', hget'⟩ := run_gets hs hI (by simp [Resting, hdone])
      (fun c hc => moved_of_done hs.mode_eq hI.store hdone hc) _ (Nat.le_refl _)
    exact ⟨s', hrun', by rw [hstore']; exact hdone, hget'⟩
  · have hrun₁ := run_store (s := s) hrun
    obtain ⟨s', hrun', hcomplete⟩ :=
      complete_of_head hs _ _ sched (inv_of_run hs hI hrun₁) rfl (Nat.le_refl _)
    exact ⟨s', Lts.RunIf.trans hrun₁ hrun', hcomplete⟩

end Receive

end AieTestHarness
