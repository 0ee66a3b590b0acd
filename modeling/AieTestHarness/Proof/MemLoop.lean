import AieTestHarness.Kernel.MemLoop
import AieTestHarness.Lib.Lts
import Mathlib.Data.List.Induction

/-!
# The memory loops: invariant and effect of a step

The window of the shift register holds the channels that may have words left, each once, and a
channel outside it has none left. What a statement does to the FIFOs is one of three things:
nothing, nothing but to commit to a number of words the FIFO is ready for, or to move one of the
words it committed to. `load_memories` and `store_memories` only differ in what the last two mean.
-/

namespace AieTestHarness

open Window

namespace Scheduler

variable {s : Scheduler} {n : Nat} {words : Nat → Nat}

def window (s : Scheduler) : List Nat := s.channel_regs.take s.num_valid_channels

structure Inv (n : Nat) (words : Nat → Nat) (s : Scheduler) : Prop where
  num_le : s.num_valid_channels ≤ n
  length_eq : s.channel_regs.length = n
  nodup : s.window.Nodup
  lt_of_mem : ∀ c ∈ s.window, c < n
  frame_le : ∀ c, c < n → s.frame_idx c ≤ words c
  finished : ∀ c, c < n → c ∉ s.window → s.frame_idx c = words c

theorem start_regs (n : Nat) : (start n).channel_regs = (List.range n).reverse := by
  exact foldl_shift_full (by simp)

theorem start_window (n : Nat) : (start n).window = (List.range n).reverse := by
  rw [window, start_regs, List.take_of_length_le (by simp [start])]

theorem inv_start (n : Nat) (words : Nat → Nat) : (start n).Inv n words := by
  refine ⟨Nat.le_refl n, by simp [start_regs], ?_, ?_, fun _ _ => Nat.zero_le _, ?_⟩
  · rw [start_window]
    exact List.nodup_reverse.mpr List.nodup_range
  · intro c hc
    simpa [start_window] using hc
  · intro c hc hmem
    exact absurd (by simpa [start_window] using hc) hmem

/-- The window at the head of the loop: the channel that is read comes last. -/
theorem Inv.window_eq (hI : s.Inv n words) (hpos : s.num_valid_channels ≠ 0) :
    s.window = s.channel_regs.take (s.num_valid_channels - 1) ++ [s.ch_id] := by
  have hlt : s.num_valid_channels - 1 < s.channel_regs.length := by
    have := hI.num_le
    have := hI.length_eq
    omega
  have hsucc : s.num_valid_channels = s.num_valid_channels - 1 + 1 := by omega
  have hch : s.ch_id = s.channel_regs[s.num_valid_channels - 1] := by
    rw [ch_id, List.getD_eq_getElem?_getD, List.getElem?_eq_getElem hlt, Option.getD_some]
  rw [hch, ← take_succ_eq hlt, ← hsucc]
  rfl

theorem retire_window : s.retire.window = s.channel_regs.take (s.num_valid_channels - 1) := rfl

theorem Inv.serve_window (hI : s.Inv n words) (hpos : s.num_valid_channels ≠ 0) :
    (s.serve s.ch_id).window = s.ch_id :: s.channel_regs.take (s.num_valid_channels - 1) := by
  have hlt : s.num_valid_channels - 1 < s.channel_regs.length := by
    have := hI.num_le
    have := hI.length_eq
    omega
  have hsucc : s.num_valid_channels = s.num_valid_channels - 1 + 1 := by omega
  rw [← take_succ_shift hlt, ← hsucc]
  rfl

theorem Inv.mem_serve_window (hI : s.Inv n words) (hpos : s.num_valid_channels ≠ 0) {c : Nat} :
    c ∈ (s.serve s.ch_id).window ↔ c ∈ s.window := by
  rw [hI.serve_window hpos, hI.window_eq hpos]
  simp [or_comm]

theorem Inv.ch_id_mem (hI : s.Inv n words) (hpos : s.num_valid_channels ≠ 0) :
    s.ch_id ∈ s.window := by
  rw [hI.window_eq hpos]
  simp

theorem Inv.length_window (hI : s.Inv n words) : s.window.length = s.num_valid_channels := by
  rw [window, List.length_take, hI.length_eq, Nat.min_eq_left hI.num_le]

theorem num_ne_zero (h : s.window ≠ []) : s.num_valid_channels ≠ 0 := by
  intro hzero
  exact h (by rw [window, hzero, List.take_zero])

theorem Inv.retire (hI : s.Inv n words) (hpos : s.num_valid_channels ≠ 0)
    (hdone : s.frame_idx s.ch_id = words s.ch_id) : s.retire.Inv n words := by
  have hwindow := hI.window_eq hpos
  have hnodup := hI.nodup
  rw [hwindow] at hnodup
  refine ⟨Nat.le_trans (Nat.sub_le _ _) hI.num_le, hI.length_eq, ?_, ?_, hI.frame_le, ?_⟩
  · rw [retire_window]
    exact (List.nodup_append.mp hnodup).1
  · intro c hc
    rw [retire_window] at hc
    exact hI.lt_of_mem c (by rw [hwindow]; simp [hc])
  · intro c hc hmem
    by_cases hch : c = s.ch_id
    · rw [hch]
      exact hdone
    · refine hI.finished c hc ?_
      rw [hwindow, List.mem_append, List.mem_singleton]
      rw [retire_window] at hmem
      tauto

theorem Inv.serve (hI : s.Inv n words) (hpos : s.num_valid_channels ≠ 0) :
    (s.serve s.ch_id).Inv n words := by
  have hnodup := hI.nodup
  rw [hI.window_eq hpos] at hnodup
  refine ⟨hI.num_le, (length_shift _ _).trans hI.length_eq, ?_, ?_, hI.frame_le, ?_⟩
  · rw [hI.serve_window hpos, List.nodup_cons]
    exact ⟨fun h => (List.nodup_append.mp hnodup).2.2 _ h _ (by simp) rfl,
      (List.nodup_append.mp hnodup).1⟩
  · intro c hc
    exact hI.lt_of_mem c ((hI.mem_serve_window hpos).mp hc)
  · intro c hc hmem
    exact hI.finished c hc fun h => hmem ((hI.mem_serve_window hpos).mpr h)

theorem Inv.advance (hI : s.Inv n words) {c k : Nat} (hle : s.frame_idx c + k ≤ words c)
    (hwords : words c < 2 ^ 32) : (s.advance c k).Inv n words := by
  have hu : u32 (s.frame_idx c + k) = s.frame_idx c + k := u32_of_lt (by omega)
  refine ⟨hI.num_le, hI.length_eq, hI.nodup, hI.lt_of_mem, ?_, ?_⟩
  · intro c' hc'
    show Function.update s.frame_idx c _ c' ≤ _
    rw [hu]
    by_cases heq : c' = c
    · subst heq
      rw [Function.update_self]
      exact hle
    · rw [Function.update_of_ne heq]
      exact hI.frame_le c' hc'
  · intro c' hc' hmem
    have hfin := hI.finished c' hc' hmem
    show Function.update s.frame_idx c _ c' = _
    rw [hu]
    by_cases heq : c' = c
    · subst heq
      rw [Function.update_self]
      omega
    · rw [Function.update_of_ne heq]
      exact hfin

/-- The scheduler of a single channel after `k` frames. -/
def sole (k : Nat) : Scheduler := ⟨1, Function.update (fun _ => 0) 0 k, [0]⟩

theorem start_one : start 1 = sole 0 := by
  simp [start, sole, Window.shift]

theorem sole_advance (k : Nat) (hk : k + 128 < 2 ^ 32) :
    ((sole k).serve (sole k).ch_id).advance (sole k).ch_id 128 = sole (k + 128) := by
  have hch : (sole k).ch_id = 0 := rfl
  rw [hch]
  simp [sole, serve, advance, Window.shift, u32_of_lt hk]

end Scheduler

namespace MemLoop

variable {σ : Type} {L : MemLoop σ} {m m' : MemProc} {x x' : σ}

/-- Words moved by the bulk transfer under way. -/
def inFlight : MemPc → Nat → Nat
  | .burst ch_id j, c => if c = ch_id then j else 0
  | .residual ch_id _ j, c => if c = ch_id then j else 0
  | _, _ => 0

def moved (m : MemProc) (c : Nat) : Nat := m.sched.frame_idx c + inFlight m.pc c

/-- Words of a channel the loop is committed to move before it looks at a FIFO again. -/
def owed (burst_len : Nat) : MemPc → Nat → Nat
  | .burst ch_id j, c => if c = ch_id then burst_len - j else 0
  | .residual ch_id numData j, c => if c = ch_id then numData - j else 0
  | _, _ => 0

/-- The memory of each channel can be addressed with 32 bits. -/
def Bounded (L : MemLoop σ) : Prop :=
  ∀ c < L.p.num_channels, (L.chs c).offsets + L.numWords c < 2 ^ 32

def PcInv (L : MemLoop σ) (m : MemProc) : Prop :=
  match m.pc with
  | .start => True
  | .head => True
  | .burstTest ch_id numData =>
    ch_id < L.p.num_channels ∧ m.sched.frame_idx ch_id + numData = L.numWords ch_id ∧ 0 < numData
  | .resTest ch_id numData =>
    ch_id < L.p.num_channels ∧ m.sched.frame_idx ch_id + numData = L.numWords ch_id ∧ 0 < numData
  | .burst ch_id j =>
    ch_id < L.p.num_channels ∧ m.sched.frame_idx ch_id + L.burst_len ≤ L.numWords ch_id
      ∧ j ≤ L.burst_len
  | .residual ch_id numData j =>
    ch_id < L.p.num_channels ∧ m.sched.frame_idx ch_id + numData = L.numWords ch_id
      ∧ j ≤ numData ∧ numData < 2 ^ 8
  | .done => (L.chs 0).mode = .FUNC_MODE → m.sched.num_valid_channels = 0

structure Inv (L : MemLoop σ) (m : MemProc) : Prop where
  sched : m.sched.Inv L.p.num_channels L.numWords
  pc : L.PcInv m

theorem inv_start (L : MemLoop σ) : L.Inv L.start :=
  ⟨Scheduler.inv_start _ _, trivial⟩

theorem start_of_sole (hN : L.p.num_channels = 1) : L.start = ⟨.sole 0, .start⟩ := by
  rw [start, hN, Scheduler.start_one]

theorem numWords_lt (L : MemLoop σ) (c : Nat) : L.numWords c < 2 ^ 32 :=
  Nat.lt_of_le_of_lt (Nat.div_le_self _ _) (u32_lt _)

theorem numData_eq {s : Scheduler} {c : Nat} (hle : s.frame_idx c ≤ L.numWords c) :
    s.frame_idx c + L.numData s c = L.numWords c := by
  have hlt := L.numWords_lt c
  unfold numData u32
  omega

/-- What a statement does, as the FIFOs see it. -/
inductive Effect (L : MemLoop σ) (m : MemProc) (x : σ) (m' : MemProc) (x' : σ) : Prop where
  | idle (hx : x' = x) (hmoved : moved m' = moved m)
      (howed : owed L.burst_len m'.pc = owed L.burst_len m.pc)
  | commit (ch_id n : Nat) (hch : ch_id < L.p.num_channels) (hx : x' = x)
      (hmoved : moved m' = moved m) (hle : moved m ch_id + n ≤ L.numWords ch_id)
      (howed : owed L.burst_len m'.pc = fun c => if c = ch_id then n else 0)
      (hready : n = L.burst_len ∧ L.burstReady x ch_id = true
        ∨ moved m ch_id + n = L.numWords ch_id ∧ L.resReady x ch_id n = true)
  | move (ch_id : Nat) (hch : ch_id < L.p.num_channels) (hlt : moved m ch_id < L.numWords ch_id)
      (hx : L.Bounded → x' = L.move x ch_id ((L.chs ch_id).offsets + moved m ch_id))
      (hmoved : moved m' = Function.update (moved m) ch_id (moved m ch_id + 1))
      (howed : owed L.burst_len m.pc ch_id = owed L.burst_len m'.pc ch_id + 1)
      (hother : ∀ c, c ≠ ch_id → owed L.burst_len m'.pc c = owed L.burst_len m.pc c)

theorem step_start (h : L.step m x = some (m', x')) (hpc : m.pc = .start) (hI : L.Inv m) :
    L.Inv m' ∧ L.Effect m x m' x' := by
  simp only [step, hpc, Option.some.injEq, Prod.mk.injEq] at h
  obtain ⟨rfl, rfl⟩ := h
  split
  · refine ⟨⟨hI.sched, trivial⟩, .idle rfl ?_ ?_⟩
    · funext c
      simp [moved, inFlight, hpc]
    · funext c
      simp [owed, hpc]
  · rename_i hmode
    refine ⟨⟨hI.sched, fun h => absurd h hmode⟩, .idle rfl ?_ ?_⟩
    · funext c
      simp [moved, inFlight, hpc]
    · funext c
      simp [owed, hpc]

theorem step_head (h : L.step m x = some (m', x')) (hpc : m.pc = .head) (hI : L.Inv m) :
    L.Inv m' ∧ L.Effect m x m' x' := by
  simp only [step, hpc] at h
  by_cases hzero : m.sched.num_valid_channels = 0
  · rw [if_pos hzero, Option.some.injEq, Prod.mk.injEq] at h
    obtain ⟨rfl, rfl⟩ := h
    refine ⟨⟨hI.sched, fun _ => hzero⟩, .idle rfl ?_ ?_⟩
    · funext c
      simp [moved, inFlight, hpc]
    · funext c
      simp [owed, hpc]
  · rw [if_neg hzero] at h
    have hch := hI.sched.lt_of_mem _ (hI.sched.ch_id_mem hzero)
    have hdata : m.sched.frame_idx m.sched.ch_id + L.numData m.sched m.sched.ch_id
        = L.numWords m.sched.ch_id := numData_eq (hI.sched.frame_le _ hch)
    by_cases hdata0 : L.numData m.sched m.sched.ch_id = 0
    · rw [if_pos hdata0, Option.some.injEq, Prod.mk.injEq] at h
      obtain ⟨rfl, rfl⟩ := h
      refine ⟨⟨hI.sched.retire hzero (by omega), ?_⟩, .idle rfl ?_ ?_⟩
      · simp [PcInv]
      · funext c
        simp [moved, inFlight, hpc, Scheduler.retire]
      · funext c
        simp [owed, hpc]
    · rw [if_neg hdata0, Option.some.injEq, Prod.mk.injEq] at h
      obtain ⟨rfl, rfl⟩ := h
      refine ⟨⟨hI.sched.serve hzero, hch, hdata, Nat.pos_of_ne_zero hdata0⟩, .idle rfl ?_ ?_⟩
      · funext c
        simp [moved, inFlight, hpc, Scheduler.serve]
      · funext c
        simp [owed, hpc]

theorem step_burstTest {ch_id numData : Nat} (h : L.step m x = some (m', x'))
    (hpc : m.pc = .burstTest ch_id numData) (hI : L.Inv m) : L.Inv m' ∧ L.Effect m x m' x' := by
  have hp : L.PcInv m := hI.pc
  simp only [PcInv, hpc] at hp
  obtain ⟨hch, hdata, hpos⟩ := hp
  simp only [step, hpc] at h
  split at h <;> rename_i htest <;> simp only [Option.some.injEq, Prod.mk.injEq] at h <;>
    obtain ⟨rfl, rfl⟩ := h
  · have hmoved : moved ⟨m.sched, .burst ch_id 0⟩ = moved m := by
      funext c
      simp [moved, inFlight, hpc]
    have hzero : moved m ch_id = m.sched.frame_idx ch_id := by simp [moved, inFlight, hpc]
    have hfit : m.sched.frame_idx ch_id + L.burst_len ≤ L.numWords ch_id := by omega
    refine ⟨⟨hI.sched, hch, hfit, Nat.zero_le _⟩,
      .commit ch_id L.burst_len hch rfl hmoved (by omega) ?_ (Or.inl ⟨rfl, htest.2⟩)⟩
    funext c
    simp [owed]
  · refine ⟨⟨hI.sched, hch, hdata, hpos⟩, .idle rfl ?_ ?_⟩
    · funext c
      simp [moved, inFlight, hpc]
    · funext c
      simp [owed, hpc]

theorem step_resTest {ch_id numData : Nat} (h : L.step m x = some (m', x'))
    (hw : ¬ L.Wraps m x) (hpc : m.pc = .resTest ch_id numData) (hI : L.Inv m) :
    L.Inv m' ∧ L.Effect m x m' x' := by
  have hp : L.PcInv m := hI.pc
  simp only [PcInv, hpc] at hp
  obtain ⟨hch, hdata, hpos⟩ := hp
  simp only [step, hpc] at h
  split at h <;> rename_i htest <;> simp only [Option.some.injEq, Prod.mk.injEq] at h <;>
    obtain ⟨rfl, rfl⟩ := h
  · have hsmall : numData < 2 ^ 8 := by
      by_contra hge
      exact hw ⟨ch_id, numData, hpc, htest, by omega⟩
    have hmoved : moved ⟨m.sched, .residual ch_id numData 0⟩ = moved m := by
      funext c
      simp [moved, inFlight, hpc]
    have hzero : moved m ch_id = m.sched.frame_idx ch_id := by simp [moved, inFlight, hpc]
    refine ⟨⟨hI.sched, hch, hdata, Nat.zero_le _, hsmall⟩,
      .commit ch_id numData hch rfl hmoved (by omega) ?_ (Or.inr ⟨by omega, htest⟩)⟩
    funext c
    simp [owed]
  · refine ⟨⟨hI.sched, trivial⟩, .idle rfl ?_ ?_⟩
    · funext c
      simp [moved, inFlight, hpc]
    · funext c
      simp [owed, hpc]

theorem moved_advance {ch_id k : Nat} (hlt : m.sched.frame_idx ch_id + k < 2 ^ 32)
    (hin : ∀ c, inFlight m.pc c = if c = ch_id then k else 0) :
    moved ⟨m.sched.advance ch_id k, .head⟩ = moved m := by
  funext c
  show Function.update m.sched.frame_idx ch_id (u32 (m.sched.frame_idx ch_id + k)) c + 0
    = m.sched.frame_idx c + inFlight m.pc c
  rw [hin, u32_of_lt hlt]
  by_cases heq : c = ch_id
  · subst heq
    rw [Function.update_self, if_pos rfl, Nat.add_zero]
  · rw [Function.update_of_ne heq, if_neg heq]

theorem step_burst {ch_id j : Nat} (h : L.step m x = some (m', x'))
    (hpc : m.pc = .burst ch_id j) (hI : L.Inv m) : L.Inv m' ∧ L.Effect m x m' x' := by
  have hp : L.PcInv m := hI.pc
  simp only [PcInv, hpc] at hp
  obtain ⟨hch, hfit, hj⟩ := hp
  have hlt := L.numWords_lt ch_id
  have hmoved : moved m ch_id = m.sched.frame_idx ch_id + j := by simp [moved, inFlight, hpc]
  simp only [step, hpc] at h
  split at h <;> rename_i htest <;> simp only [Option.some.injEq, Prod.mk.injEq] at h <;>
    obtain ⟨rfl, rfl⟩ := h
  · refine ⟨⟨hI.sched, hch, hfit, htest⟩, .move ch_id hch (by omega) ?_ ?_ ?_ ?_⟩
    · intro hb
      have hbound := hb _ hch
      rw [u32_of_lt (by omega), hmoved, Nat.add_assoc]
    · funext c
      by_cases heq : c = ch_id
      · subst heq
        rw [Function.update_self, hmoved]
        simp [moved, inFlight, Nat.add_assoc]
      · simp [moved, inFlight, hpc, heq]
    · simp only [owed, hpc, if_true]
      omega
    · intro c hc
      simp [owed, hpc, hc]
  · obtain rfl : j = L.burst_len := by omega
    refine ⟨⟨hI.sched.advance hfit (by omega), trivial⟩, .idle rfl ?_ ?_⟩
    · exact moved_advance (by omega) fun c => by simp [inFlight, hpc]
    · funext c
      simp [owed, hpc]

theorem step_residual {ch_id numData j : Nat} (h : L.step m x = some (m', x'))
    (hpc : m.pc = .residual ch_id numData j) (hI : L.Inv m) : L.Inv m' ∧ L.Effect m x m' x' := by
  have hp : L.PcInv m := hI.pc
  simp only [PcInv, hpc] at hp
  obtain ⟨hch, hdata, hj, hsmall⟩ := hp
  have hlt := L.numWords_lt ch_id
  have hmoved : moved m ch_id = m.sched.frame_idx ch_id + j := by simp [moved, inFlight, hpc]
  simp only [step, hpc] at h
  split at h <;> rename_i htest <;> simp only [Option.some.injEq, Prod.mk.injEq] at h <;>
    obtain ⟨rfl, rfl⟩ := h
  · -- below 256 words the counter does not wrap
    have hmod : (j + 1) % 2 ^ 8 = j + 1 := Nat.mod_eq_of_lt (by omega)
    rw [hmod]
    refine ⟨⟨hI.sched, hch, hdata, by omega, hsmall⟩, .move ch_id hch (by omega) ?_ ?_ ?_ ?_⟩
    · intro hb
      have hbound := hb _ hch
      rw [u32_of_lt (by omega), hmoved, Nat.add_assoc]
    · funext c
      by_cases heq : c = ch_id
      · subst heq
        rw [Function.update_self, hmoved]
        simp [moved, inFlight, Nat.add_assoc]
      · simp [moved, inFlight, hpc, heq]
    · simp only [owed, hpc, if_true]
      omega
    · intro c hc
      simp [owed, hpc, hc]
  · obtain rfl : j = numData := by omega
    refine ⟨⟨hI.sched.advance (Nat.le_of_eq hdata) (by omega), trivial⟩, .idle rfl ?_ ?_⟩
    · exact moved_advance (by omega) fun c => by simp [inFlight, hpc]
    · funext c
      simp [owed, hpc]

/-- Every statement keeps the invariant and has one of the three effects. -/
theorem step_spec (h : L.step m x = some (m', x')) (hw : ¬ L.Wraps m x) (hI : L.Inv m) :
    L.Inv m' ∧ L.Effect m x m' x' := by
  cases hpc : m.pc with
  | start => exact step_start h hpc hI
  | head => exact step_head h hpc hI
  | burstTest ch_id numData => exact step_burstTest h hpc hI
  | resTest ch_id numData => exact step_resTest h hw hpc hI
  | burst ch_id j => exact step_burst h hpc hI
  | residual ch_id numData j => exact step_residual h hpc hI
  | done => simp [step, hpc] at h

theorem step_to_resTest {ch_id numData : Nat} (h : L.step m x = some (m', x'))
    (hpc' : m'.pc = .resTest ch_id numData) :
    x' = x ∧ ¬ (L.burst_len ≤ numData ∧ L.burstReady x ch_id = true) := by
  obtain ⟨sched, pc⟩ := m
  cases pc <;> simp only [step] at h
  case burstTest c n =>
    split at h <;> rename_i htest <;> simp only [Option.some.injEq, Prod.mk.injEq] at h <;>
      obtain ⟨rfl, rfl⟩ := h
    · cases hpc'
    · cases hpc'
      exact ⟨rfl, htest⟩
  case start =>
    simp only [Option.some.injEq, Prod.mk.injEq] at h
    obtain ⟨rfl, rfl⟩ := h
    dsimp only at hpc'
    split at hpc' <;> cases hpc'
  all_goals
    repeat' split at h
    all_goals
      simp only [Option.some.injEq, Prod.mk.injEq, reduceCtorEq] at h
      try
        obtain ⟨rfl, rfl⟩ := h
        cases hpc'

/-! ### The loop that never ends -/

/-- The loop of the rest is not about to be entered with more than its counter counts. -/
def countable (m : MemProc) : Bool :=
  match m.pc with
  | .resTest _ numData => numData < 2 ^ 8
  | _ => true

theorem lt_of_countable {ch_id numData : Nat} (h : countable m = true)
    (hpc : m.pc = .resTest ch_id numData) : numData < 2 ^ 8 := by
  simpa only [countable, hpc, decide_eq_true_eq] using h

def Trapped (m : MemProc) : Prop :=
  ∃ ch_id numData j, m.pc = .residual ch_id numData j ∧ 2 ^ 8 ≤ numData ∧ j < 2 ^ 8

theorem trapped_of_wraps (hw : L.Wraps m x) (h : L.step m x = some (m', x')) : Trapped m' := by
  obtain ⟨ch_id, numData, hpc, hready, hge⟩ := hw
  rw [step, hpc] at h
  simp only [hready, if_true, Option.some.injEq, Prod.mk.injEq] at h
  obtain ⟨rfl, rfl⟩ := h
  exact ⟨ch_id, numData, 0, rfl, hge, by decide⟩

theorem Trapped.step (ht : Trapped m) (h : L.step m x = some (m', x')) : Trapped m' := by
  obtain ⟨ch_id, numData, j, hpc, hge, hlt⟩ := ht
  rw [MemLoop.step, hpc] at h
  simp only [if_pos (show j < numData by omega), Option.some.injEq, Prod.mk.injEq] at h
  obtain ⟨rfl, rfl⟩ := h
  exact ⟨ch_id, numData, _, rfl, hge, Nat.mod_lt _ (by decide)⟩

theorem Trapped.ne_done (ht : Trapped m) : m.pc ≠ .done := by
  obtain ⟨ch_id, numData, j, hpc, -⟩ := ht
  rw [hpc]
  exact nofun

theorem moved_le (hI : L.Inv m) {c : Nat} (hc : c < L.p.num_channels) :
    moved m c ≤ L.numWords c := by
  have hframe := hI.sched.frame_le c hc
  have hp : L.PcInv m := hI.pc
  cases hpc : m.pc with
  | burst ch_id j =>
      simp only [PcInv, hpc] at hp
      simp only [moved, inFlight, hpc]
      split
      · subst c
        omega
      · omega
  | residual ch_id numData j =>
      simp only [PcInv, hpc] at hp
      simp only [moved, inFlight, hpc]
      split
      · subst c
        omega
      · omega
  | _ => simpa [moved, inFlight, hpc] using hframe

/-- In functional mode the loop only returns when every word has moved. -/
theorem moved_of_done (hmode : (L.chs 0).mode = .FUNC_MODE) (hI : L.Inv m) (hpc : m.pc = .done)
    {c : Nat} (hc : c < L.p.num_channels) : moved m c = L.numWords c := by
  have hp : L.PcInv m := hI.pc
  simp only [PcInv, hpc] at hp
  have hwindow : m.sched.window = [] := by simp [Scheduler.window, hp hmode]
  simp only [moved, inFlight, hpc, Nat.add_zero]
  exact hI.sched.finished c hc (by simp [hwindow])

/-! ### The loop on its own -/

def lts (L : MemLoop σ) : Lts (MemProc × σ) Unit := ⟨fun _ s => L.step s.1 s.2⟩

inductive Moves (L : MemLoop σ) (c : Nat) : Nat → σ → σ → Prop where
  | refl (x : σ) : Moves L c 0 x x
  | head {k : Nat} {x y : σ} (i : Nat) : Moves L c k (L.move x c i) y → Moves L c (k + 1) x y

theorem run_step {sched : Scheduler} {pc : MemPc} {s : MemProc × σ}
    (h : L.step ⟨sched, pc⟩ x = some s) : L.lts.Run (⟨sched, pc⟩, x) s :=
  .single (l := ()) trivial h

theorem step_burst_move {sched : Scheduler} {c j : Nat} (h : j < L.burst_len) :
    L.step ⟨sched, .burst c j⟩ x = some (⟨sched, .burst c (j + 1)⟩,
      L.move x c (u32 ((L.chs c).offsets + sched.frame_idx c + j))) :=
  if_pos h

theorem step_residual_move {sched : Scheduler} {c n j : Nat} (h : j < n) :
    L.step ⟨sched, .residual c n j⟩ x = some (⟨sched, .residual c n ((j + 1) % 2 ^ 8)⟩,
      L.move x c (u32 ((L.chs c).offsets + sched.frame_idx c) + j)) :=
  if_pos h

theorem step_head_serve {sched : Scheduler} {n : Nat} (hpos : sched.num_valid_channels ≠ 0)
    (hdata : L.numData sched sched.ch_id = n) (hn : n ≠ 0) :
    L.step ⟨sched, .head⟩ x = some (⟨sched.serve sched.ch_id, .burstTest sched.ch_id n⟩, x) := by
  subst hdata
  exact (if_neg hpos).trans (if_neg hn)

theorem step_burstTest_pos {sched : Scheduler} {c n : Nat} (hn : L.burst_len ≤ n)
    (hready : L.burstReady x c = true) :
    L.step ⟨sched, .burstTest c n⟩ x = some (⟨sched, .burst c 0⟩, x) :=
  if_pos ⟨hn, hready⟩

theorem step_burstTest_neg {sched : Scheduler} {c n : Nat}
    (h : ¬ (L.burst_len ≤ n ∧ L.burstReady x c = true)) :
    L.step ⟨sched, .burstTest c n⟩ x = some (⟨sched, .resTest c n⟩, x) :=
  if_neg h

theorem step_resTest_pos {sched : Scheduler} {c n : Nat} (hready : L.resReady x c n = true) :
    L.step ⟨sched, .resTest c n⟩ x = some (⟨sched, .residual c n 0⟩, x) :=
  if_pos hready

theorem step_resTest_neg {sched : Scheduler} {c n : Nat} (hready : ¬ L.resReady x c n = true) :
    L.step ⟨sched, .resTest c n⟩ x = some (⟨sched, .head⟩, x) :=
  if_neg hready

/-- A burst, once entered, moves its words whatever the other processes do. -/
theorem run_burst (sched : Scheduler) (c : Nat) (k j : Nat) (hj : j + k = L.burst_len) (x : σ) :
    ∃ y, L.lts.Run (⟨sched, .burst c j⟩, x) (⟨sched.advance c L.burst_len, .head⟩, y)
      ∧ L.Moves c k x y := by
  induction k generalizing j x with
  | zero => exact ⟨x, run_step (if_neg (by omega)), .refl x⟩
  | succ k ih =>
      obtain ⟨y, hrun, hmoves⟩ := ih (j + 1) (by omega)
        (L.move x c (u32 ((L.chs c).offsets + sched.frame_idx c + j)))
      exact ⟨y, (run_step (step_burst_move (by omega))).trans hrun, .head _ hmoves⟩

/-- A pass over a channel that is ready for a burst. -/
theorem run_burst_pass {sched : Scheduler} {n : Nat} (hpos : sched.num_valid_channels ≠ 0)
    (hdata : L.numData sched sched.ch_id = n) (hn : n ≠ 0) (hlen : L.burst_len ≤ n)
    (hready : L.burstReady x sched.ch_id = true) :
    ∃ y, L.lts.Run (⟨sched, .head⟩, x)
        (⟨(sched.serve sched.ch_id).advance sched.ch_id L.burst_len, .head⟩, y)
      ∧ L.Moves sched.ch_id L.burst_len x y := by
  obtain ⟨y, hrun, hmoves⟩ :=
    run_burst (L := L) (sched.serve sched.ch_id) sched.ch_id L.burst_len 0 (by omega) x
  exact ⟨y, (run_step (step_head_serve hpos hdata hn)).trans
    ((run_step (step_burstTest_pos hlen hready)).trans hrun), hmoves⟩

/-- So does the rest, below 256 words. -/
theorem run_residual (sched : Scheduler) (c n : Nat) (hn : n < 2 ^ 8) (k j : Nat) (hj : j + k = n)
    (x : σ) : ∃ y, L.lts.Run (⟨sched, .residual c n j⟩, x) (⟨sched.advance c n, .head⟩, y)
      ∧ L.Moves c k x y := by
  induction k generalizing j x with
  | zero => exact ⟨x, run_step (if_neg (by omega)), .refl x⟩
  | succ k ih =>
      obtain ⟨y, hrun, hmoves⟩ := ih (j + 1) (by omega)
        (L.move x c (u32 ((L.chs c).offsets + sched.frame_idx c) + j))
      have hmod : (j + 1) % 2 ^ 8 = j + 1 := Nat.mod_eq_of_lt (by omega)
      rw [← hmod] at hrun
      exact ⟨y, (run_step (step_residual_move (by omega))).trans hrun, .head _ hmoves⟩

/-- From 256 words on the rest never ends: words move for ever. -/
theorem run_wrapped (sched : Scheduler) (c n : Nat) (hn : 2 ^ 8 ≤ n) (k j : Nat) (hj : j < 2 ^ 8)
    (x : σ) : ∃ j' y, L.lts.Run (⟨sched, .residual c n j⟩, x) (⟨sched, .residual c n j'⟩, y)
      ∧ L.Moves c k x y := by
  induction k generalizing j x with
  | zero => exact ⟨j, x, .refl, .refl x⟩
  | succ k ih =>
      obtain ⟨j', y, hrun, hmoves⟩ := ih ((j + 1) % 2 ^ 8) (Nat.mod_lt _ (by decide))
        (L.move x c (u32 ((L.chs c).offsets + sched.frame_idx c) + j))
      exact ⟨j', y, (run_step (step_residual_move (by omega))).trans hrun, .head _ hmoves⟩

/-- A channel's FIFO is ready for the pass over it, with `n` words left. -/
def Ready (L : MemLoop σ) (x : σ) (c n : Nat) : Prop :=
  L.burst_len ≤ n ∧ L.burstReady x c = true ∨ L.resReady x c n = true

/-- A FIFO at rest never lets 256 words into the rest. -/
def RestSmall (L : MemLoop σ) (x : σ) : Prop :=
  ∀ c n, L.resReady x c n = true → ¬ (L.burst_len ≤ n ∧ L.burstReady x c = true) → n < 2 ^ 8

/-- A pass over a channel that is ready moves words of it. -/
theorem run_ready_pass {sched : Scheduler} {n : Nat} (hpos : sched.num_valid_channels ≠ 0)
    (hdata : L.numData sched sched.ch_id = n) (hn : n ≠ 0) (hB : 0 < L.burst_len)
    (hsmall : L.RestSmall x) (hready : L.Ready x sched.ch_id n) :
    ∃ k y, 0 < k ∧ k ≤ n ∧ L.Moves sched.ch_id k x y ∧
      L.lts.Run (⟨sched, .head⟩, x)
        (⟨(sched.serve sched.ch_id).advance sched.ch_id k, .head⟩, y) := by
  by_cases hburst : L.burst_len ≤ n ∧ L.burstReady x sched.ch_id = true
  · obtain ⟨y, hrun, hmoves⟩ := run_burst_pass hpos hdata hn hburst.1 hburst.2
    exact ⟨L.burst_len, y, hB, hburst.1, hmoves, hrun⟩
  · have hres : L.resReady x sched.ch_id n = true := by
      rcases hready with h | h
      · exact absurd h hburst
      · exact h
    obtain ⟨y, hrun, hmoves⟩ := run_residual (L := L) (sched.serve sched.ch_id) sched.ch_id n
      (hsmall _ _ hres hburst) n 0 (by omega) x
    exact ⟨n, y, by omega, Nat.le_refl n, hmoves, (run_step (step_head_serve hpos hdata hn)).trans
      ((run_step (step_burstTest_neg hburst)).trans
      ((run_step (step_resTest_pos hres)).trans hrun))⟩

/-- A pass over a channel that is not ready only rotates the window. -/
theorem run_idle_pass {sched : Scheduler} {n : Nat} (hpos : sched.num_valid_channels ≠ 0)
    (hdata : L.numData sched sched.ch_id = n) (hn : n ≠ 0) (hready : ¬ L.Ready x sched.ch_id n) :
    L.lts.Run (⟨sched, .head⟩, x) (⟨sched.serve sched.ch_id, .head⟩, x) := by
  rw [Ready, not_or] at hready
  exact (run_step (step_head_serve hpos hdata hn)).trans
    ((run_step (step_burstTest_neg hready.1)).trans (run_step (step_resTest_neg hready.2)))

theorem step_head_retire {sched : Scheduler} (hpos : sched.num_valid_channels ≠ 0)
    (hdata : L.numData sched sched.ch_id = 0) :
    L.step ⟨sched, .head⟩ x = some (⟨sched.retire, .head⟩, x) :=
  (if_neg hpos).trans (if_pos hdata)

theorem step_head_done {sched : Scheduler} (hzero : sched.num_valid_channels = 0) :
    L.step ⟨sched, .head⟩ x = some (⟨sched, .done⟩, x) :=
  if_pos hzero

theorem run_ready_head (hB : 0 < L.burst_len) (hsmall : L.RestSmall x)
    {sched : Scheduler} (hI : sched.Inv L.p.num_channels L.numWords)
    (hpos : sched.num_valid_channels ≠ 0) (hn : L.numData sched sched.ch_id ≠ 0)
    (hready : L.Ready x sched.ch_id (L.numData sched sched.ch_id)) :
    ∃ ch k sched' y, 0 < k ∧ ch < L.p.num_channels ∧ L.Moves ch k x y ∧
      sched.frame_idx ch + k ≤ L.numWords ch ∧
      sched'.frame_idx = Function.update sched.frame_idx ch (sched.frame_idx ch + k) ∧
      L.lts.Run (⟨sched, .head⟩, x) (⟨sched', .head⟩, y) := by
  have hch := hI.lt_of_mem _ (hI.ch_id_mem hpos)
  have hlt := L.numWords_lt sched.ch_id
  have hdata := numData_eq (hI.frame_le _ hch)
  obtain ⟨k, y, hk, hkn, hmoves, hrun⟩ := run_ready_pass hpos rfl hn hB hsmall hready
  refine ⟨sched.ch_id, k, _, y, hk, hch, hmoves, by omega, ?_, hrun⟩
  show Function.update sched.frame_idx _ (u32 (sched.frame_idx _ + k)) = _
  rw [u32_of_lt (by omega)]

/-- On its own the loop gets round to every channel that is ready, unless it moves words of another
one first. The induction is on the channels that come before it. -/
theorem run_until_ready (hB : 0 < L.burst_len) (hsmall : L.RestSmall x) {c : Nat}
    (after : List Nat) :
    ∀ (sched : Scheduler) (before : List Nat), sched.Inv L.p.num_channels L.numWords →
      sched.window = before ++ c :: after → sched.frame_idx c < L.numWords c →
      L.Ready x c (L.numWords c - sched.frame_idx c) →
      ∃ ch k sched' y, 0 < k ∧ ch < L.p.num_channels ∧ L.Moves ch k x y ∧
        sched.frame_idx ch + k ≤ L.numWords ch ∧
        sched'.frame_idx = Function.update sched.frame_idx ch (sched.frame_idx ch + k) ∧
        L.lts.Run (⟨sched, .head⟩, x) (⟨sched', .head⟩, y) := by
  induction after using List.reverseRecOn with
  | nil =>
      intro sched before hI hwindow hlt hready
      have hpos : sched.num_valid_channels ≠ 0 := Scheduler.num_ne_zero (by rw [hwindow]; simp)
      have hsplit := hI.window_eq hpos
      rw [hwindow] at hsplit
      obtain rfl : c = sched.ch_id := List.singleton_inj.mp (List.append_inj' hsplit rfl).2
      have hdata := numData_eq (L := L) (Nat.le_of_lt hlt)
      refine run_ready_head hB hsmall hI hpos (by omega) ?_
      rwa [show L.numData sched sched.ch_id
        = L.numWords sched.ch_id - sched.frame_idx sched.ch_id by
        omega]
  | append_singleton after last ih =>
      intro sched before hI hwindow hlt hready
      have hpos : sched.num_valid_channels ≠ 0 := Scheduler.num_ne_zero (by rw [hwindow]; simp)
      have hsplit := hI.window_eq hpos
      rw [hwindow, ← List.cons_append, ← List.append_assoc] at hsplit
      obtain ⟨htake, -⟩ := List.append_inj' hsplit rfl
      have hch := hI.lt_of_mem _ (hI.ch_id_mem hpos)
      have hdata := numData_eq (L := L) (hI.frame_le _ hch)
      by_cases hn : L.numData sched sched.ch_id = 0
      · -- the channel read drops out
        obtain ⟨ch, k, sched', y, hk, hch', hmoves, hle, hframe, hrun⟩ :=
          ih sched.retire before (hI.retire hpos (by omega))
            (by rw [Scheduler.retire_window, htake]) hlt hready
        exact ⟨ch, k, sched', y, hk, hch', hmoves, hle, hframe,
          (run_step (step_head_retire hpos hn)).trans hrun⟩
      · by_cases hother : L.Ready x sched.ch_id (L.numData sched sched.ch_id)
        · exact run_ready_head hB hsmall hI hpos hn hother
        · -- the window turns by one
          obtain ⟨ch, k, sched', y, hk, hch', hmoves, hle, hframe, hrun⟩ :=
            ih (sched.serve sched.ch_id) (sched.ch_id :: before) (hI.serve hpos)
              (by rw [hI.serve_window hpos, ← htake, List.cons_append]) hlt hready
          exact ⟨ch, k, sched', y, hk, hch', hmoves, hle, hframe,
            (run_idle_pass hpos rfl hn hother).trans hrun⟩

/-- With every word moved, the loop returns. -/
theorem run_to_done (k : Nat) :
    ∀ sched : Scheduler, sched.num_valid_channels = k → sched.Inv L.p.num_channels L.numWords →
      (∀ c < L.p.num_channels, sched.frame_idx c = L.numWords c) →
      ∃ sched', L.lts.Run (⟨sched, .head⟩, x) (⟨sched', .done⟩, x) := by
  induction k with
  | zero => exact fun sched hk _ _ => ⟨sched, run_step (step_head_done hk)⟩
  | succ k ih =>
      intro sched hk hI hall
      have hpos : sched.num_valid_channels ≠ 0 := by omega
      have hch := hI.lt_of_mem _ (hI.ch_id_mem hpos)
      have hdone := hall _ hch
      have hdata := numData_eq (L := L) (hI.frame_le _ hch)
      obtain ⟨sched', hrun⟩ := ih sched.retire (by simp [Scheduler.retire, hk])
        (hI.retire hpos hdone) hall
      exact ⟨sched', (run_step (step_head_retire hpos (by omega))).trans hrun⟩

/-- Wherever the loop stands, on its own it comes back to its head unless it has returned. -/
theorem run_to_head (hmode : (L.chs 0).mode = .FUNC_MODE) (hsmall : L.RestSmall x)
    (hrest : ∀ ch_id numData, m.pc = .resTest ch_id numData →
      L.resReady x ch_id numData = true → numData < 2 ^ 8)
    (hI : L.Inv m) :
    m.pc = .done ∨ ∃ sched y, L.lts.Run (m, x) (⟨sched, .head⟩, y) := by
  obtain ⟨sched, pc⟩ := m
  have hp : L.PcInv ⟨sched, pc⟩ := hI.pc
  have hpass : ∀ ch_id numData, (L.resReady x ch_id numData = true → numData < 2 ^ 8) →
      ∃ sched' y, L.lts.Run (⟨sched, .resTest ch_id numData⟩, x) (⟨sched', .head⟩, y) := by
    intro ch_id numData hlt
    by_cases hready : L.resReady x ch_id numData = true
    · obtain ⟨y, hrun, -⟩ :=
        run_residual (L := L) sched ch_id numData (hlt hready) numData 0 (by omega) x
      exact ⟨_, y, (run_step (step_resTest_pos hready)).trans hrun⟩
    · exact ⟨sched, x, run_step (step_resTest_neg hready)⟩
  cases pc with
  | start => exact Or.inr ⟨sched, x, run_step (by simp [step, hmode])⟩
  | head => exact Or.inr ⟨sched, x, .refl⟩
  | burstTest ch_id numData =>
      refine Or.inr ?_
      by_cases hready : L.burst_len ≤ numData ∧ L.burstReady x ch_id = true
      · obtain ⟨y, hrun, -⟩ := run_burst (L := L) sched ch_id L.burst_len 0 (by omega) x
        exact ⟨_, y, (run_step (step_burstTest_pos hready.1 hready.2)).trans hrun⟩
      · obtain ⟨sched', y, hrun⟩ := hpass ch_id numData fun hres => hsmall _ _ hres hready
        exact ⟨sched', y, (run_step (step_burstTest_neg hready)).trans hrun⟩
  | resTest ch_id numData => exact Or.inr (hpass _ _ (hrest _ _ rfl))
  | burst ch_id j =>
      obtain ⟨-, -, hj⟩ := hp
      obtain ⟨y, hrun, -⟩ := run_burst (L := L) sched ch_id (L.burst_len - j) j (by omega) x
      exact Or.inr ⟨_, y, hrun⟩
  | residual ch_id numData j =>
      obtain ⟨-, -, hj, hlt⟩ := hp
      obtain ⟨y, hrun, -⟩ :=
        run_residual (L := L) sched ch_id numData hlt (numData - j) j (by omega) x
      exact Or.inr ⟨_, y, hrun⟩
  | done => exact Or.inl rfl

end MemLoop

end AieTestHarness
