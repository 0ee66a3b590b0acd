import AieTestHarness.Server.Watchdog

/-!
# When the watchdog ends a session

The countdown and the ticks without activity add up to the interval the countdown was loaded with.
An interval that is raised in the meantime is not looked at, so the session ends after as many idle
ticks as the older, shorter interval asked for.
-/

namespace AieTestHarness

namespace Watchdog

variable {s s' : Watchdog} {l : WatchdogLabel}

def Countdown (s : Watchdog) : Prop :=
  match s.pc with
  | .start => s.idle = 0
  | .load | .reload => s.monitorInterval ≠ 0 ∧ s.idle = 0
  | .sleep | .done | .active | .clear =>
    s.monitorInterval ≠ 0 ∧ s.count ≠ 0 ∧ s.count.toNat + s.idle = s.loaded
  | .decrement => s.monitorInterval ≠ 0 ∧ s.count ≠ 0 ∧ s.count.toNat + s.idle = s.loaded + 1
  | .test => s.monitorInterval ≠ 0 ∧ s.count.toNat + s.idle = s.loaded
  | .ended | .returned => True

theorem toNat_pred {n : UInt64} (h : n ≠ 0) : (n - 1).toNat + 1 = n.toNat := by
  have hpos : 0 < n.toNat := Nat.pos_of_ne_zero fun hzero => h (UInt64.toNat_inj.mp hzero)
  have hle : (1 : UInt64) ≤ n := UInt64.le_iff_toNat_le.mpr hpos
  rw [UInt64.toNat_sub_of_le _ _ hle]
  exact Nat.sub_add_cancel hpos

structure Kept (s s' : Watchdog) : Prop where
  pc_eq : s'.pc = s.pc
  count_eq : s'.count = s.count
  idle_eq : s'.idle = s.idle
  loaded_eq : s'.loaded = s.loaded
  interval : s'.monitorInterval = s.monitorInterval ∨ s'.monitorInterval ≠ 0

theorem step_cases (hstep : lts.step l s = some s') : s.monitorStep = some s' ∨ Kept s s' := by
  cases l with
  | monitor => exact Or.inl hstep
  | setActive =>
      obtain ⟨-, heq⟩ := Option.ite_none_left_eq_some.mp hstep
      rw [← Option.some.inj heq]
      exact Or.inr ⟨rfl, rfl, rfl, rfl, Or.inl rfl⟩
  | setTimeOut timeout =>
      obtain ⟨-, heq⟩ := Option.ite_none_left_eq_some.mp hstep
      rw [← Option.some.inj heq, setTimeOut]
      split
      · exact Or.inr ⟨rfl, rfl, rfl, rfl, Or.inl rfl⟩
      · rename_i hne
        exact Or.inr ⟨rfl, rfl, rfl, rfl, Or.inr hne⟩
  | leave =>
      obtain ⟨-, heq⟩ := Option.ite_none_left_eq_some.mp hstep
      rw [← Option.some.inj heq]
      exact Or.inr ⟨rfl, rfl, rfl, rfl, Or.inl rfl⟩

theorem Countdown.kept (h : s.Countdown) (hkept : Kept s s') : s'.Countdown := by
  have hne : s.monitorInterval ≠ 0 → s'.monitorInterval ≠ 0 := fun hs =>
    hkept.interval.elim (fun heq => heq ▸ hs) id
  unfold Countdown at h ⊢
  rw [hkept.pc_eq, hkept.count_eq, hkept.idle_eq, hkept.loaded_eq]
  cases hat : s.pc <;> rw [hat] at h
  case start | ended | returned => exact h
  all_goals exact ⟨hne h.1, h.2⟩

theorem Countdown.monitorStep (h : s.Countdown) (hstep : s.monitorStep = some s') :
    s'.Countdown := by
  unfold Countdown at h
  unfold Watchdog.monitorStep at hstep
  cases hpc : s.pc <;> rw [hpc] at h hstep <;> cases hstep
  case start =>
    by_cases hzero : s.monitorInterval = 0
    · simp [Countdown, goto, hzero]
    · simpa [Countdown, goto, hzero] using h
  case load =>
    refine ⟨h.1, h.1, ?_⟩
    exact congrArg (s.monitorInterval.toNat + ·) h.2
  case sleep => exact h
  case done =>
    by_cases hdone : s.mDone
    · simp [Countdown, goto, hdone]
    · simpa [Countdown, goto, hdone] using h
  case active =>
    by_cases hactive : s.mActive
    · rw [if_pos hactive]
      exact ⟨h.1, rfl⟩
    · rw [if_neg hactive]
      refine ⟨h.1, h.2.1, ?_⟩
      show s.count.toNat + (s.idle + 1) = s.loaded + 1
      rw [← h.2.2, Nat.add_assoc]
  case reload =>
    refine ⟨h.1, h.1, ?_⟩
    exact congrArg (s.monitorInterval.toNat + ·) h.2
  case clear => exact ⟨h.1, h.2.2⟩
  case decrement =>
    refine ⟨h.1, ?_⟩
    have hpred := toNat_pred h.2.1
    have hsum := h.2.2
    show (s.count - 1).toNat + s.idle = s.loaded
    omega
  case test =>
    by_cases hzero : s.count = 0
    · simp [Countdown, goto, hzero]
    · simpa [Countdown, goto, hzero] using ⟨h.1, h.2⟩

theorem Countdown.step (h : s.Countdown) (hstep : lts.step l s = some s') : s'.Countdown := by
  rcases step_cases hstep with hmonitor | hkept
  · exact h.monitorStep hmonitor
  · exact h.kept hkept

theorem countdown_of_run {monitorInterval : UInt64} (hrun : lts.Run (new monitorInterval) s) :
    s.Countdown :=
  hrun.invariant (I := Countdown) (fun _ _ _ h _ hstep => h.step hstep) rfl

def Ends (s s' : Watchdog) : Prop := s.pc = .test ∧ s'.pc = .ended

/-- What is asked of a step: the session ends after no fewer idle ticks than the interval in force
says, and the countdown does not wrap. -/
structure Fair (s s' : Watchdog) : Prop where
  patient : Ends s s' → s.monitorInterval.toNat ≤ s.idle
  no_wrap : s.pc = .decrement → s'.pc = .test → s'.count.toNat + 1 = s.count.toNat

/-- Where the session ends, the interval has not been raised since the last tick that saw it active,
or since the start. -/
def Unraised (s s' : Watchdog) : Prop := Ends s s' → s.monitorInterval.toNat ≤ s.loaded

theorem Ends.idle_eq (h : s.Countdown) (hstep : lts.step l s = some s') (hends : Ends s s') :
    s.idle = s.loaded := by
  obtain ⟨hpc, hpc'⟩ := hends
  have hzero : s.count = 0 := by
    rcases step_cases hstep with hmonitor | hkept
    · simp only [monitorStep, hpc, Option.some.injEq] at hmonitor
      by_contra hne
      rw [← hmonitor, if_neg hne] at hpc'
      cases hpc'
    · cases (hpc'.symm.trans hkept.pc_eq).trans hpc
  unfold Countdown at h
  rw [hpc] at h
  have hsum := h.2
  rw [hzero] at hsum
  simpa using hsum

theorem no_wrap_of_step (h : s.Countdown) (hstep : lts.step l s = some s') (hpc : s.pc = .decrement)
    (hpc' : s'.pc = .test) : s'.count.toNat + 1 = s.count.toNat := by
  unfold Countdown at h
  rw [hpc] at h
  rcases step_cases hstep with hmonitor | hkept
  · simp only [monitorStep, hpc, Option.some.injEq] at hmonitor
    rw [← hmonitor]
    exact toNat_pred h.2.1
  · cases (hpc'.symm.trans hkept.pc_eq).trans hpc

theorem fair_iff_unraised (h : s.Countdown) (hstep : lts.step l s = some s') :
    Fair s s' ↔ Unraised s s' := by
  constructor
  · intro hfair hends
    calc
      s.monitorInterval.toNat ≤ s.idle := hfair.patient hends
      _ = s.loaded := hends.idle_eq h hstep
  · intro hraised
    refine ⟨fun hends => ?_, no_wrap_of_step h hstep⟩
    calc
      s.monitorInterval.toNat ≤ s.loaded := hraised hends
      _ = s.idle := (hends.idle_eq h hstep).symm

/-- The watchdog keeps to the interval in force, in every run that does not reach zero with an
interval raised since the countdown was loaded. -/
theorem fair_iff (monitorInterval : UInt64) (ls : List WatchdogLabel) :
    lts.Along Fair ls (new monitorInterval) ↔ lts.Along Unraised ls (new monitorInterval) :=
  Lts.along_congr (fun _ _ _ hrun hstep => fair_iff_unraised (countdown_of_run hrun) hstep) ls

/-- An interval of one second is raised to a hundred before the first tick. -/
theorem not_fair : ¬ ∀ monitorInterval ls, monitorInterval ≠ 0 →
    lts.Along Fair ls (new monitorInterval) := by
  intro hall
  let raised : List WatchdogLabel :=
    [.monitor, .monitor, .setTimeOut 100, .monitor, .monitor, .monitor, .monitor]
  have hraised : ∃ s ∈ lts.exec raised (new 1), s.pc = .test ∧ s.count = 0 ∧ s.idle = 1
      ∧ s.monitorInterval = 100 := by
    decide
  obtain ⟨s, hexec, hpc, hzero, hidle, hinterval⟩ := hraised
  have hstep : lts.step .monitor s = some (s.goto .ended) := by
    simp only [lts, monitorStep, hpc, hzero, if_true]
  have hfair := (hall 1 (raised ++ [.monitor]) (by decide)).last (Option.mem_def.mp hexec) hstep
  have hle := hfair.patient ⟨hpc, rfl⟩
  rw [hinterval, hidle] at hle
  exact absurd hle (by decide)

end Watchdog

end AieTestHarness
