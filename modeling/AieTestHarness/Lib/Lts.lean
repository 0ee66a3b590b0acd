import Mathlib.Logic.Function.Basic

/-!
# Labelled transition systems

A system is a partial step function: `step l s` is the state the action `l` leads to from `s`, and
`none` where `l` is not enabled. Interleavings need nothing more: each thread is a family of labels,
and a run picks any enabled label at each point.

Runs carry a condition on their steps. `RunIf C` is the runs all of whose steps meet `C`, and `Run`
is the case of no condition. A property that only holds away from some branch is then stated over
`RunIf`, with the branch ruled out by `C` before the step is taken.
-/

/-- A labelled transition system given by its partial step function. -/
structure Lts (σ ι : Type*) where
  step : ι → σ → Option σ

namespace Lts

variable {σ ι : Type*} (T : Lts σ ι)

/-- The runs from `s` every step of which meets `C`. -/
inductive RunIf (C : ι → σ → Prop) (s : σ) : σ → Prop where
  | refl : RunIf C s s
  | tail {t u : σ} (l : ι) : RunIf C s t → C l t → T.step l t = some u → RunIf C s u

abbrev Run (s t : σ) : Prop := T.RunIf (fun _ _ => True) s t

variable {T} {C : ι → σ → Prop} {s t u : σ}

theorem RunIf.single {l : ι} (hC : C l s) (hstep : T.step l s = some t) : T.RunIf C s t :=
  .tail l .refl hC hstep

theorem RunIf.trans (hst : T.RunIf C s t) (htu : T.RunIf C t u) : T.RunIf C s u := by
  induction htu with
  | refl => exact hst
  | tail l _ hC hstep ih => exact .tail l ih hC hstep

theorem RunIf.head {l : ι} (hC : C l s) (hstep : T.step l s = some t) (htu : T.RunIf C t u) :
    T.RunIf C s u :=
  (RunIf.single hC hstep).trans htu

theorem RunIf.mono {C' : ι → σ → Prop} (himp : ∀ l s, C l s → C' l s) (hrun : T.RunIf C s t) :
    T.RunIf C' s t := by
  induction hrun with
  | refl => exact .refl
  | tail l _ hC hstep ih => exact .tail l ih (himp l _ hC) hstep

theorem RunIf.toRun (hrun : T.RunIf C s t) : T.Run s t :=
  hrun.mono fun _ _ _ => trivial

/-- An invariant that each admitted step keeps holds all along a run. -/
theorem RunIf.invariant {I : σ → Prop}
    (hstep : ∀ l s s', I s → C l s → T.step l s = some s' → I s')
    (hrun : T.RunIf C s t) (hinit : I s) : I t := by
  induction hrun with
  | refl => exact hinit
  | tail l _ hC h ih => exact hstep l _ _ ih hC h

/-- An invariant may lean on one already established. -/
theorem RunIf.invariant_of {I J : σ → Prop} (hJ : ∀ t, T.RunIf C s t → J t)
    (hstep : ∀ l s s', J s → I s → C l s → T.step l s = some s' → I s')
    (hrun : T.RunIf C s t) (hinit : I s) : I t := by
  induction hrun with
  | refl => exact hinit
  | tail l hprev hC h ih => exact hstep l _ _ (hJ _ hprev) ih hC h

/-- Where each step outside `C` leads into a trap, a run that is not in the trap met `C` all
along. -/
theorem RunIf.or_trap (Trap : σ → Prop)
    (henter : ∀ l t u, T.RunIf C s t → ¬ C l t → T.step l t = some u → Trap u)
    (hstay : ∀ l t u, Trap t → T.step l t = some u → Trap u) (hrun : T.Run s t) :
    T.RunIf C s t ∨ Trap t := by
  induction hrun with
  | refl => exact Or.inl .refl
  | @tail t u l _ _ hstep ih =>
      rcases ih with hprev | htrap
      · by_cases hC : C l t
        · exact Or.inl (.tail l hprev hC hstep)
        · exact Or.inr (henter l t u hprev hC hstep)
      · exact Or.inr (hstay l t u htrap hstep)

/-- Where each state outside `Q` leads to one with a smaller measure, every state leads into `Q`. -/
theorem RunIf.exists_of_measure {I Q : σ → Prop} (μ : σ → Nat)
    (h : ∀ s, I s → ¬ Q s → ∃ s', T.RunIf C s s' ∧ I s' ∧ μ s' < μ s) (hs : I s) :
    ∃ s', T.RunIf C s s' ∧ I s' ∧ Q s' := by
  induction hn : μ s using Nat.strongRecOn generalizing s with
  | ind n ih =>
      by_cases hQ : Q s
      · exact ⟨s, .refl, hs, hQ⟩
      · obtain ⟨s', hrun, hs', hlt⟩ := h s hs hQ
        obtain ⟨s'', hrun', hs'', hQ'⟩ := ih (μ s') (by rwa [← hn]) hs' rfl
        exact ⟨s'', hrun.trans hrun', hs'', hQ'⟩

/-- What stays once it is reached, and can be reached for each index, can be reached for all. -/
theorem RunIf.exists_forall_lt {I : σ → Prop} {Q : Nat → σ → Prop}
    (hI : ∀ s s', I s → T.RunIf C s s' → I s') (hQ : ∀ c s s', Q c s → T.RunIf C s s' → Q c s')
    {n : Nat} (h : ∀ c < n, ∀ s, I s → ∃ s', T.RunIf C s s' ∧ Q c s') (hs : I s) :
    ∃ s', T.RunIf C s s' ∧ ∀ c < n, Q c s' := by
  induction n with
  | zero => exact ⟨s, .refl, fun c hc => absurd hc (Nat.not_lt_zero c)⟩
  | succ n ih =>
      obtain ⟨s₁, hrun₁, hall⟩ := ih fun c hc => h c (Nat.lt_succ_of_lt hc)
      obtain ⟨s', hrun', hlast⟩ := h n (Nat.lt_succ_self n) s₁ (hI s s₁ hs hrun₁)
      refine ⟨s', hrun₁.trans hrun', fun c hc => ?_⟩
      rcases Nat.lt_succ_iff_lt_or_eq.mp hc with hlt | rfl
      · exact hQ c s₁ s' (hall c hlt) hrun'
      · exact hlast

theorem RunIf.of_steps {C' : ι → σ → Prop} (himp : ∀ l s s', T.step l s = some s' → C' l s)
    (hrun : T.RunIf C s t) : T.RunIf C' s t := by
  induction hrun with
  | refl => exact .refl
  | tail l _ _ hstep ih => exact .tail l ih (himp l _ _ hstep) hstep

/-- The state a list of actions leads to, when each is enabled in turn. -/
def exec : List ι → σ → Option σ
  | [], s => some s
  | l :: ls, s => (T.step l s).bind (exec ls)

@[simp]
theorem exec_nil : T.exec [] s = some s := rfl

theorem exec_cons (l : ι) (ls : List ι) : T.exec (l :: ls) s = (T.step l s).bind (T.exec ls) := rfl

theorem runIf_of_exec {ls : List ι} (hC : ∀ l ∈ ls, ∀ s, C l s) (hexec : T.exec ls s = some t) :
    T.RunIf C s t := by
  induction ls generalizing s with
  | nil =>
      cases hexec
      exact .refl
  | cons l ls ih =>
      rw [exec_cons, Option.bind_eq_some_iff] at hexec
      obtain ⟨s', hstep, hrest⟩ := hexec
      exact .head (hC l List.mem_cons_self s) hstep
        (ih (fun l' hl' => hC l' (List.mem_cons_of_mem l hl')) hrest)

theorem run_of_exec {ls : List ι} (hexec : T.exec ls s = some t) : T.Run s t :=
  runIf_of_exec (fun _ _ _ => trivial) hexec

/-- A run to a state with `P`, found by computing one. -/
theorem exists_run {P : σ → Prop} (ls : List ι) (hexec : ∃ t ∈ T.exec ls s, P t) :
    ∃ t, T.Run s t ∧ P t :=
  hexec.imp fun _ h => ⟨run_of_exec (Option.mem_def.mp h.1), h.2⟩

def guarded (P : ι → σ → Bool) : Lts σ ι where
  step l s := if P l s then T.step l s else none

theorem runIf_of_guarded {P : ι → σ → Bool} (hP : ∀ l s, P l s = true → C l s)
    (hrun : (T.guarded P).Run s t) : T.RunIf C s t := by
  induction hrun with
  | refl => exact .refl
  | @tail t u l _ _ hstep ih =>
      change (if P l t = true then T.step l t else none) = some u at hstep
      split at hstep <;> rename_i hl
      · exact .tail l ih (hP l t hl) hstep
      · cases hstep

/-- A run that meets `C` to a state with `Q`, found by computing one with a test of `C`. -/
theorem exists_runIf {Q : σ → Prop} (P : ι → σ → Bool) (hP : ∀ l s, P l s = true → C l s)
    (ls : List ι) (hexec : ∃ t ∈ (T.guarded P).exec ls s, Q t) : ∃ t, T.RunIf C s t ∧ Q t :=
  (exists_run ls hexec).imp fun _ h => ⟨runIf_of_guarded hP h.1, h.2⟩

/-- What a run does, step by step: `P` relates the states before and after each step. -/
def Along (T : Lts σ ι) (P : σ → σ → Prop) : List ι → σ → Prop
  | [], _ => True
  | l :: ls, s => ∀ t, T.step l s = some t → P s t ∧ Along T P ls t

instance decidableAlong {P : σ → σ → Prop} [∀ s t, Decidable (P s t)] (ls : List ι) (s : σ) :
    Decidable (T.Along P ls s) :=
  match ls with
  | [] => inferInstanceAs (Decidable True)
  | l :: ls =>
    have : ∀ t, Decidable (T.Along P ls t) := decidableAlong ls
    inferInstanceAs (Decidable (∀ t ∈ T.step l s, P s t ∧ T.Along P ls t))

theorem Along.imp {P Q : σ → σ → Prop} {s₀ : σ}
    (himp : ∀ t l u, T.Run s₀ t → T.step l t = some u → P t u → Q t u) {ls : List ι} {s : σ}
    (hs : T.Run s₀ s) (h : T.Along P ls s) : T.Along Q ls s := by
  induction ls generalizing s with
  | nil => trivial
  | cons l ls ih =>
      intro t hstep
      exact ⟨himp s l t hs hstep (h t hstep).1, ih (.tail l hs trivial hstep) (h t hstep).2⟩

/-- What each step keeps or breaks decides about whole runs. -/
theorem along_congr {P Q : σ → σ → Prop} {s : σ}
    (h : ∀ t l u, T.Run s t → T.step l t = some u → (P t u ↔ Q t u)) (ls : List ι) :
    T.Along P ls s ↔ T.Along Q ls s :=
  ⟨.imp (fun t l u ht hu => (h t l u ht hu).mp) .refl,
    .imp (fun t l u ht hu => (h t l u ht hu).mpr) .refl⟩

/-- Where an invariant holds, each step decides the same, and a good step keeps the invariant. -/
theorem along_congr_of {P Q : σ → σ → Prop} {I : σ → Prop}
    (h : ∀ t l u, I t → T.step l t = some u → (P t u ↔ Q t u) ∧ (P t u → I u)) (ls : List ι)
    (hs : I s) : T.Along P ls s ↔ T.Along Q ls s := by
  induction ls generalizing s with
  | nil => exact Iff.rfl
  | cons l ls ih =>
      refine forall_congr' fun u => forall_congr' fun hstep => ?_
      obtain ⟨hiff, hkeep⟩ := h s l u hs hstep
      constructor
      · rintro ⟨hP, hrest⟩
        exact ⟨hiff.mp hP, (ih (hkeep hP)).mp hrest⟩
      · rintro ⟨hQ, hrest⟩
        exact ⟨hiff.mpr hQ, (ih (hkeep (hiff.mpr hQ))).mpr hrest⟩

theorem Along.last {P : σ → σ → Prop} {ls : List ι} {l : ι} {s t u : σ}
    (h : T.Along P (ls ++ [l]) s) (hexec : T.exec ls s = some t) (hstep : T.step l t = some u) :
    P t u := by
  induction ls generalizing s with
  | nil =>
      cases hexec
      exact (h u hstep).1
  | cons l' ls ih =>
      rw [exec_cons, Option.bind_eq_some_iff] at hexec
      obtain ⟨s', hs', hexec⟩ := hexec
      exact ih (h s' hs').2 hexec

end Lts
