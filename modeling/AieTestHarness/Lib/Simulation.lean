import AieTestHarness.Lib.Lts

/-!
# Simulation

One system is seen in another along a map of states. Forwards, each step of the first is a step of
the second or leaves what is seen as it is; backwards, each step of the second is carried out by a
run of the first. Both directions carry an invariant of the first system and the conditions of the
steps.
-/

namespace Lts

variable {σ ι τ κ : Type*} {T : Lts σ ι} {U : Lts τ κ} {f : σ → τ} {I : σ → Prop}
  {C : ι → σ → Prop} {D : κ → τ → Prop} {s s' : σ}

/-- Along `f` a step of `T` is a step of `U`, or nothing is seen of it. -/
def Simulates (T : Lts σ ι) (U : Lts τ κ) (f : σ → τ) (I : σ → Prop) (C : ι → σ → Prop)
    (D : κ → τ → Prop) : Prop :=
  ∀ l s s', I s → C l s → T.step l s = some s' →
    f s' = f s ∨ ∃ k, D k (f s) ∧ U.step k (f s) = some (f s')

/-- Each step of `U` from what is seen of a state is carried out by a run of `T`. -/
def Lifts (T : Lts σ ι) (U : Lts τ κ) (f : σ → τ) (I : σ → Prop) (C : ι → σ → Prop)
    (D : κ → τ → Prop) : Prop :=
  ∀ k s t, I s → D k (f s) → U.step k (f s) = some t → ∃ s', T.RunIf C s s' ∧ I s' ∧ f s' = t

theorem Simulates.run (h : Simulates T U f I C D)
    (hstep : ∀ l s s', I s → C l s → T.step l s = some s' → I s') (hs : I s)
    (hrun : T.RunIf C s s') : U.RunIf D (f s) (f s') := by
  induction hrun with
  | refl => exact .refl
  | @tail t u l hprev hC hlast ih =>
      rcases h l t u (hprev.invariant hstep hs) hC hlast with heq | ⟨k, hD, hk⟩
      · rw [heq]
        exact ih
      · exact .tail k ih hD hk

theorem Lifts.run (h : Lifts T U f I C D) (hs : I s) {t t' : τ} (ht : f s = t)
    (hrun : U.RunIf D t t') : ∃ s', T.RunIf C s s' ∧ I s' ∧ f s' = t' := by
  induction hrun with
  | refl => exact ⟨s, .refl, hs, ht⟩
  | tail k _ hD hlast ih =>
      obtain ⟨s', hrun', hs', rfl⟩ := ih
      obtain ⟨s'', hrun'', hs'', heq⟩ := h k s' _ hs' hD hlast
      exact ⟨s'', hrun'.trans hrun'', hs'', heq⟩

/-- It is enough that each step of `U` finds a step of `T` that carries it out, or one that is not
seen and brings it nearer. -/
theorem Lifts.of_enabled (μ : κ → σ → Nat)
    (h : ∀ k s t, I s → D k (f s) → U.step k (f s) = some t →
      ∃ l s', C l s ∧ T.step l s = some s' ∧ I s' ∧ (f s' = t ∨ f s' = f s ∧ μ k s' < μ k s)) :
    Lifts T U f I C D := by
  intro k s t hs hD hstep
  induction hn : μ k s using Nat.strongRecOn generalizing s with
  | ind n ih =>
      obtain ⟨l, s', hC, hl, hs', heq | ⟨heq, hlt⟩⟩ := h k s t hs hD hstep
      · exact ⟨s', .single hC hl, hs', heq⟩
      · obtain ⟨s'', hrun, hs'', hseen⟩ :=
          ih (μ k s') (by rwa [← hn]) s' hs' (by rwa [heq]) (by rwa [heq]) rfl
        exact ⟨s'', .head hC hl hrun, hs'', hseen⟩

/-- What only gets harder to meet along a run, and is met at its end, was met all along. -/
theorem RunIf.of_end {P : σ → Prop} (hstep : ∀ l s s', T.step l s = some s' → P s' → P s)
    (hrun : T.RunIf C s s') (hend : P s') : T.RunIf (fun l s => C l s ∧ P s) s s' := by
  induction hrun with
  | refl => exact .refl
  | tail l _ hC hlast ih =>
      have hbefore := hstep l _ _ hlast hend
      exact .tail l (ih hbefore) ⟨hC, hbefore⟩ hlast

def restrict (T : Lts σ ι) (D : ι → σ → Prop) [∀ l s, Decidable (D l s)] : Lts σ ι where
  step l s := if D l s then T.step l s else none

theorem RunIf.of_restrict {D : ι → σ → Prop} [∀ l s, Decidable (D l s)]
    (hrun : (T.restrict D).Run s s') : T.RunIf D s s' := by
  induction hrun with
  | refl => exact .refl
  | tail l _ _ hlast ih =>
      obtain ⟨hD, hstep⟩ := Option.ite_none_right_eq_some.mp hlast
      exact .tail l ih hD hstep

end Lts
