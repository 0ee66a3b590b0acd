import AieTestHarness.Kernel.Counter
import AieTestHarness.Proof.Outputs
import AieTestHarness.Proof.ReceiveProgress
import AieTestHarness.Proof.TransmitProgress

/-!
# Counters from the trigger to the user

A process and its counter share nothing but triggers, so the counter is treated once for all
processes: it reads the triggers in order, in different iterations. `feed` and `get` then write two
triggers each, and the counters end up with the user under the channel's own index.
-/

namespace AieTestHarness

open Slices Loops Transaction

/-! ### The counter of any process -/

section Counted

variable {σ ι : Type} {P : Source σ ι} {s s' : Counted σ}

theorem counted_step_some {l : ι} (h : P.counted.step (some l) s = some s') :
    ∃ proc trig, P.step l s.proc = some (proc, trig)
      ∧ s' = { s with proc, trigger_strm := s.trigger_strm + if trig then 1 else 0 } := by
  simp only [Source.counted] at h
  split at h
  · cases h
  · rename_i proc hstep
    cases h
    exact ⟨proc, false, hstep, rfl⟩
  · rename_i proc hstep
    split at h
    · cases h
      exact ⟨proc, true, hstep, rfl⟩
    · cases h

theorem counted_step_of {σ ι : Type} {P : Source σ ι} {s : Counted σ} {l : ι} {proc : σ}
    {trig : Bool}
    (h : P.step l s.proc = some (proc, trig)) (hroom : s.trigger_strm < Source.triggerDepth) :
    ∃ ch, P.counted.step (some l) s = some ch ∧ ch.proc = proc := by
  cases trig with
  | false => exact ⟨{ s with proc }, by simp only [Source.counted, h], rfl⟩
  | true =>
      exact ⟨{ s with proc, trigger_strm := s.trigger_strm + 1 },
        by simp only [Source.counted, h, if_pos hroom], rfl⟩

inductive Reads (s : Counted σ) : Prop where
  | start (hst : s.cnt.st = .START) (hreads : s.reads = []) (hreturned : s.cnt.returned = false)
  | first {i : Nat} (hst : s.cnt.st = .FIRST) (hreads : s.reads = [i]) (hi : i < s.iters)
      (hfirst : s.cnt.firstcc = u64 i) (hreturned : s.cnt.returned = false)
  | last {i j : Nat} (hst : s.cnt.st = .LAST) (hreads : s.reads = [i, j]) (hij : i < j)
      (hj : j < s.iters) (hfirst : s.cnt.firstcc = u64 i) (hlast : s.cnt.lastcc = u64 j)

structure CounterInv (written : σ → Nat) (s : Counted σ) : Prop where
  written_eq : written s.proc = s.trigger_strm + s.reads.length
  counter_eq : s.cnt.returned = false → s.cnt.counter = u64 s.iters
  reads : Reads s

theorem u64_succ (n : Nat) : u64 (u64 n + 1) = u64 (n + 1) := Nat.mod_add_mod n (2 ^ 64) 1

theorem counted_step_none (h : P.counted.step none s = some s') :
    s.cnt.returned = false
    ∧ ((s.cnt.st = .LAST
      ∧ s' = { s with cnt := { s.cnt with returned := true }, iters := s.iters + 1 })
      ∨ (s.cnt.st ≠ .LAST ∧ s.trigger_strm = 0
        ∧ s' = { s with cnt := s.cnt.tick, iters := s.iters + 1 })
      ∨ (s.cnt.st = .START ∧ s.trigger_strm ≠ 0 ∧ s' = { s with
          cnt := { s.cnt with st := .FIRST, firstcc := s.cnt.counter }.tick
          trigger_strm := s.trigger_strm - 1, iters := s.iters + 1, reads := s.reads ++ [s.iters] })
      ∨ (s.cnt.st = .FIRST ∧ s.trigger_strm ≠ 0 ∧ s' = { s with
          cnt := { s.cnt with st := .LAST, lastcc := s.cnt.counter }.tick
          trigger_strm := s.trigger_strm - 1, iters := s.iters + 1, reads :=
            s.reads ++ [s.iters] })) := by
  simp only [Source.counted] at h
  split at h
  · cases h
  rename_i hreturned
  refine ⟨by simpa using hreturned, ?_⟩
  cases hst : s.cnt.st with
  | START =>
      by_cases hempty : s.trigger_strm = 0
      · simp only [Counter.iterate, hst, hempty, decide_true, if_true] at h
        cases h
        exact Or.inr (Or.inl ⟨by simp, hempty, by simp [hempty]⟩)
      · simp only [Counter.iterate, hst, hempty, decide_false] at h
        cases h
        exact Or.inr (Or.inr (Or.inl ⟨rfl, hempty, rfl⟩))
  | FIRST =>
      by_cases hempty : s.trigger_strm = 0
      · simp only [Counter.iterate, hst, hempty, decide_true, if_true] at h
        cases h
        exact Or.inr (Or.inl ⟨by simp, hempty, by simp [hempty]⟩)
      · simp only [Counter.iterate, hst, hempty, decide_false] at h
        cases h
        exact Or.inr (Or.inr (Or.inr ⟨rfl, hempty, rfl⟩))
  | LAST =>
      simp only [Counter.iterate, hst] at h
      cases h
      exact Or.inl ⟨rfl, by simp [hst]⟩

variable {written : σ → Nat}

theorem CounterInv.start {proc : σ} (h : written proc = 0) :
    CounterInv written (Source.start proc) :=
  ⟨h, fun _ => rfl, .start rfl rfl rfl⟩

theorem CounterInv.step
    (hwritten : ∀ l proc proc' trig, P.step l proc = some (proc', trig) →
      written proc' = written proc + if trig then 1 else 0)
    {l : Option ι} (h : CounterInv written s) (hstep : P.counted.step l s = some s') :
    CounterInv written s' := by
  obtain ⟨hcount, hcounter, hreads⟩ := h
  cases l with
  | some l =>
      obtain ⟨proc, trig, hproc, rfl⟩ := counted_step_some hstep
      refine ⟨?_, hcounter, ?_⟩
      · rw [hwritten l _ _ _ hproc, hcount]
        exact Nat.add_right_comm _ _ _
      · cases hreads with
        | start hst hnil hreturned => exact .start hst hnil hreturned
        | first hst hone hi hfirst hreturned => exact .first hst hone hi hfirst hreturned
        | last hst htwo hij hj hfirst hlast => exact .last hst htwo hij hj hfirst hlast
  | none =>
      obtain ⟨hreturned, hcases⟩ := counted_step_none hstep
      have hnow := hcounter hreturned
      have htick : u64 (s.cnt.counter + 1) = u64 (s.iters + 1) := by rw [hnow, u64_succ]
      rcases hcases with ⟨hst, rfl⟩ | ⟨hst, hempty, rfl⟩ | ⟨hst, hfull, rfl⟩ | ⟨hst, hfull, rfl⟩
      · refine ⟨hcount, fun h => by simp at h, ?_⟩
        cases hreads with
        | start hst' => rw [hst] at hst'; cases hst'
        | first hst' => rw [hst] at hst'; cases hst'
        | last hst' htwo hij hj hfirst hlast =>
            exact .last hst' htwo hij (Nat.lt_succ_of_lt hj) hfirst hlast
      · refine ⟨hcount, fun _ => htick, ?_⟩
        cases hreads with
        | start hst' hnil => exact .start hst' hnil hreturned
        | first hst' hone hi hfirst =>
            exact .first hst' hone (Nat.lt_succ_of_lt hi) hfirst hreturned
        | last hst' => exact absurd hst' hst
      · refine ⟨?_, fun _ => htick, ?_⟩
        · rw [hcount]
          simp only [List.length_append, List.length_singleton]
          omega
        · cases hreads with
          | start _ hnil =>
              exact .first rfl (congrArg (· ++ [s.iters]) hnil) (Nat.lt_succ_self _) hnow hreturned
          | first hst' => rw [hst] at hst'; cases hst'
          | last hst' => rw [hst] at hst'; cases hst'
      · refine ⟨?_, fun _ => htick, ?_⟩
        · rw [hcount]
          simp only [List.length_append, List.length_singleton]
          omega
        · cases hreads with
          | start hst' => rw [hst] at hst'; cases hst'
          | first _ hone hi hfirst =>
              exact .last rfl (congrArg (· ++ [s.iters]) hone) hi (Nat.lt_succ_self _) hfirst hnow
          | last hst' => rw [hst] at hst'; cases hst'

theorem counterInv_of_run
    (hwritten : ∀ l proc proc' trig, P.step l proc = some (proc', trig) →
      written proc' = written proc + if trig then 1 else 0) {proc : σ} (hproc : written proc = 0)
    (hrun : P.counted.Run (Source.start proc) s) : CounterInv written s :=
  Lts.RunIf.invariant (fun _ _ _ hI _ hstep => hI.step hwritten hstep) hrun (.start hproc)

theorem exec_of_last (hst : s.cnt.st = .LAST) (hreturned : s.cnt.returned = false) :
    ∃ s', P.counted.exec [none] s = some s' ∧ s'.cnt.returned = true := by
  simp [Lts.exec_cons, Source.counted, Counter.iterate, hst, hreturned]

theorem exec_of_first (hst : s.cnt.st = .FIRST) (hreturned : s.cnt.returned = false)
    (hfull : s.trigger_strm ≠ 0) :
    ∃ s', P.counted.exec [none, none] s = some s' ∧ s'.cnt.returned = true := by
  obtain ⟨s₁, hstep, hst₁, hreturned₁⟩ : ∃ s₁, P.counted.step none s = some s₁
      ∧ s₁.cnt.st = .LAST ∧ s₁.cnt.returned = false := by
    simp [Source.counted, Counter.iterate, Counter.tick, hst, hreturned, hfull]
  rw [Lts.exec_cons, hstep]
  exact exec_of_last hst₁ hreturned₁

theorem exec_of_start (hst : s.cnt.st = .START) (hreturned : s.cnt.returned = false)
    (hfull : 2 ≤ s.trigger_strm) :
    ∃ s', P.counted.exec [none, none, none] s = some s' ∧ s'.cnt.returned = true := by
  have hne : s.trigger_strm ≠ 0 := by omega
  obtain ⟨s₁, hstep, hst₁, hreturned₁, hfull₁⟩ : ∃ s₁, P.counted.step none s = some s₁
      ∧ s₁.cnt.st = .FIRST ∧ s₁.cnt.returned = false ∧ s₁.trigger_strm = s.trigger_strm - 1 := by
    simp [Source.counted, Counter.iterate, Counter.tick, hst, hreturned, hne]
  rw [Lts.exec_cons, hstep]
  exact exec_of_first hst₁ hreturned₁ (by omega)

/-- The counter never waits for ever: with both triggers written it is done in at most three
iterations. -/
theorem CounterInv.terminates (h : CounterInv written s) (htwo : written s.proc = 2) :
    ∃ k ≤ 3, ∃ s', P.counted.exec (List.replicate k none) s = some s' ∧ s'.cnt.returned = true := by
  have hcount := h.written_eq
  rw [htwo] at hcount
  cases h.reads with
  | start hst hnil hreturned =>
      rw [hnil, List.length_nil] at hcount
      exact ⟨3, Nat.le_refl 3, exec_of_start hst hreturned (by omega)⟩
  | first hst hone _ _ hreturned =>
      rw [hone, List.length_singleton] at hcount
      exact ⟨2, by omega, exec_of_first hst hreturned (by omega)⟩
  | last hst =>
      cases hreturned : s.cnt.returned with
      | false => exact ⟨1, by omega, exec_of_last hst hreturned⟩
      | true => exact ⟨0, by omega, s, rfl, hreturned⟩

/-- A counter that has returned has read both triggers, in different iterations. -/
structure CounterRead (s : Counted σ) : Prop where
  reads_eq : ∃ i j, s.reads = [i, j] ∧ i < j ∧ j < s.iters ∧ s.cnt.firstcc = u64 i
    ∧ s.cnt.lastcc = u64 j
  lt : s.iters < 2 ^ 64 → s.cnt.firstcc < s.cnt.lastcc ∧ s.cnt.lastcc < 2 ^ 64

theorem CounterInv.read (h : CounterInv written s) (hreturned : s.cnt.returned = true) :
    CounterRead s := by
  cases h.reads with
  | start _ _ hno => rw [hreturned] at hno; cases hno
  | first _ _ _ _ hno => rw [hreturned] at hno; cases hno
  | @last i j _ htwo hij hj hfirst hlast =>
      refine ⟨⟨i, j, htwo, hij, hj, hfirst, hlast⟩, fun hiters => ?_⟩
      rw [hfirst, hlast, u64_of_lt (n := i) (by omega), u64_of_lt (n := j) (by omega)]
      omega

end Counted

/-! ### The triggers of `feed` and `get` -/

def triggers (acts : List Act) : Nat := acts.count .trigger

theorem triggers_append (acts acts' : List Act) :
    triggers (acts ++ acts') = triggers acts + triggers acts' := List.count_append

@[simp]
theorem triggers_beats (bs : List Beat) : triggers (bs.map .beat) = 0 := by
  refine List.count_eq_zero_of_not_mem fun h => ?_
  obtain ⟨b, _, hb⟩ := List.mem_map.mp h
  cases hb

@[simp]
theorem beatsOf_nil : beatsOf [] = [] := rfl

@[simp]
theorem beatsOf_append (acts acts' : List Act) :
    beatsOf (acts ++ acts') = beatsOf acts ++ beatsOf acts' := List.filterMap_append

@[simp]
theorem beatsOf_trigger : beatsOf [.trigger] = [] := rfl

@[simp]
theorem beatsOf_map_beat (bs : List Beat) : beatsOf (bs.map .beat) = bs := by
  induction bs with
  | nil => rfl
  | cons b bs ih =>
      rw [List.map_cons, ← List.singleton_append, beatsOf_append, ih]
      rfl

inductive Adds (acts : List Act) : Bool → List Act → Prop where
  | beats (bs : List Beat) : Adds acts false (acts ++ bs.map .beat)
  | trigger : Adds acts true (acts ++ [.trigger])

theorem Adds.quiet (acts : List Act) : Adds acts false acts := by
  have h : Adds acts false (acts ++ [].map .beat) := .beats []
  rwa [List.map_nil, List.append_nil] at h

theorem Adds.triggers_eq {trig : Bool} {acts acts' : List Act} (h : Adds acts trig acts') :
    triggers acts' = triggers acts + if trig then 1 else 0 := by
  cases h with
  | beats bs =>
      rw [triggers_append, triggers_beats]
      rfl
  | trigger =>
      rw [triggers_append]
      rfl

def Channel.numBeats (ch : Channel) : Nat :=
  match ch.mode with
  | .FUNC_MODE => ch.numFrames
  | .PERF_MODE => ch.numRep * ch.numFrames

/-- What `feed` has done when it returns: a trigger, all `n` stream words, a trigger. -/
def FeedWhole (n : Nat) (acts : List Act) : Prop :=
  ∃ bs : List Beat, bs.length = n ∧ acts = .trigger :: (bs.map .beat ++ [.trigger])

/-- What `get` has done when it returns: the first of `n` stream words, a trigger, the others, a
trigger; or two triggers, where there are no stream words. -/
def GetWhole (n : Nat) (acts : List Act) : Prop :=
  n = 0 ∧ acts = [.trigger, .trigger]
  ∨ ∃ b, ∃ bs : List Beat, bs.length + 1 = n
  ∧ acts = .beat b :: .trigger :: (bs.map .beat ++ [.trigger])

section Feed

variable {p : Platform} {ch : Channel} {buff : List Beat} {s s' : FeedState} {trig : Bool}

def FeedProc.phase : FeedProc → Nat
  | .wait _ => 0
  | .first => 0
  | .func _ => 1
  | .perf _ _ => 1
  | .last => 1
  | .returned => 2

theorem FeedProc.phase_le (pc : FeedProc) : pc.phase ≤ 2 := by
  cases pc <;> simp [phase]

/-- A statement of `feed` writes a trigger and enters the next phase, or stays in its phase and
writes stream words between the triggers only. -/
theorem FeedState.next_cases {room : Bool} (h : next p ch buff room s = some (s', trig)) :
    (trig = true ∧ s'.pc.phase = s.pc.phase + 1 ∧ s'.acts = s.acts ++ [.trigger])
    ∨ (trig = false ∧ s'.pc.phase = s.pc.phase
      ∧ (s'.acts = s.acts ∨ s.pc.phase = 1 ∧ ∃ bs : List Beat, s'.acts = s.acts
        ++ bs.map .beat)) := by
  unfold FeedState.next at h
  split at h <;> rename_i hpc <;> rw [hpc]
  · cases h
    exact Or.inr ⟨rfl, rfl, Or.inl rfl⟩
  · cases h
    exact Or.inr ⟨rfl, rfl, Or.inl rfl⟩
  · cases h
    refine Or.inl ⟨rfl, ?_, rfl⟩
    show (FeedState.branch ch).phase = 1
    unfold FeedState.branch
    cases ch.mode <;> rfl
  · cases h
    exact Or.inr ⟨rfl, rfl, Or.inl rfl⟩
  · obtain ⟨⟨pc', memStr', out⟩, _, heq⟩ := Option.map_eq_some_iff.mp h
    cases heq
    exact Or.inr ⟨rfl, rfl, Or.inr ⟨rfl, out, rfl⟩⟩
  · cases h
    exact Or.inr ⟨rfl, rfl, Or.inl rfl⟩
  · cases h
    exact Or.inr ⟨rfl, rfl, Or.inl rfl⟩
  · split at h
    · cases h
      exact Or.inr ⟨rfl, rfl, Or.inr ⟨rfl, [_], rfl⟩⟩
    · cases h
  · cases h
    exact Or.inl ⟨rfl, rfl, rfl⟩
  · cases h

/-- One trigger ahead of all stream words, and one behind them. -/
def FeedState.Ok (s : FeedState) : Prop :=
  (s.pc.phase = 0 ∧ s.acts = [])
  ∨ (s.pc.phase = 1 ∧ ∃ bs : List Beat, s.acts = .trigger :: bs.map .beat)
  ∨ (s.pc.phase = 2 ∧ ∃ bs : List Beat, s.acts = .trigger :: (bs.map .beat ++ [.trigger]))

theorem FeedState.step_adds {l : FeedLabel} (h : (feed p ch buff).step l s = some (s', trig)) :
    Adds s.acts trig s'.acts := by
  cases l with
  | mem data =>
      cases h
      exact .quiet _
  | step room =>
      rcases FeedState.next_cases h with ⟨rfl, _, hacts⟩ | ⟨rfl, _, hacts⟩
      · exact hacts ▸ .trigger
      · rcases hacts with hsame | ⟨_, out, hout⟩
        · exact hsame ▸ .quiet _
        · exact hout ▸ .beats out

theorem FeedState.Ok.step {l : FeedLabel} (hok : s.Ok)
    (h : (feed p ch buff).step l s = some (s', trig)) : s'.Ok := by
  cases l with
  | mem data =>
      cases h
      exact hok
  | step room =>
      rcases FeedState.next_cases h with ⟨_, hphase, hacts⟩ | ⟨_, hphase, hacts⟩
      · rcases hok with ⟨hzero, hnil⟩ | ⟨hone, bs, hbs⟩ | ⟨htwo, _⟩
        · exact Or.inr (Or.inl ⟨by omega, [], by rw [hacts, hnil]; rfl⟩)
        · exact Or.inr (Or.inr ⟨by omega, bs, by rw [hacts, hbs]; rfl⟩)
        · have hle := s'.pc.phase_le
          omega
      · rcases hacts with hsame | ⟨hone, out, hout⟩
        · unfold FeedState.Ok
          rw [hphase, hsame]
          exact hok
        · rcases hok with ⟨hzero, _⟩ | ⟨_, bs, hbs⟩ | ⟨htwo, _⟩
          · omega
          · exact Or.inr (Or.inl ⟨by omega, bs ++ out, by rw [hout, hbs, List.map_append]; rfl⟩)
          · omega

/-! #### Its stream words -/

def FeedProc.InRange (p : Kernel) (ch : Channel) : FeedProc → Prop
  | .func pc => ch.mode = .FUNC_MODE ∧ pc.InRange p ch
  | .perf _ _ => ch.mode = .PERF_MODE
  | _ => True

def FeedProc.left (p : Kernel) (ch : Channel) : FeedProc → Nat
  | .wait _ | .first => ch.numBeats
  | .func pc => ch.numFrames - pc.writes p ch
  | .perf (j + 1) i => j * ch.numFrames + i
  | .perf 0 _ | .last | .returned => 0

/-- Statements `feed` still has to make from its branch on, an upper bound. -/
def FeedProc.branchWork (p : Kernel) (ch : Channel) : Nat :=
  match ch.mode with
  | .FUNC_MODE => (FeedPc.head 0).rank p ch + 3
  | .PERF_MODE => ch.numRep * (ch.numFrames + 1) + 3

def FeedProc.work (p : Kernel) (ch : Channel) : FeedProc → Nat
  | .wait count => count + 1 + branchWork p ch
  | .first => branchWork p ch
  | .func pc => pc.rank p ch + 2
  | .perf (j + 1) i => j * (ch.numFrames + 1) + i + 3
  | .perf 0 _ => 2
  | .last => 1
  | .returned => 0

theorem FeedProc.round_spec (p : Kernel) (ch : Channel) (j : Nat) :
    (FeedProc.perf j ch.numFrames).left p ch = j * ch.numFrames
      ∧ (FeedProc.perf j ch.numFrames).work p ch < j * (ch.numFrames + 1) + 3 := by
  cases j with
  | zero => exact ⟨(Nat.zero_mul _).symm, by simp [work]⟩
  | succ j =>
      refine ⟨(Nat.succ_mul j ch.numFrames).symm, ?_⟩
      show j * (ch.numFrames + 1) + ch.numFrames + 3 < _
      rw [Nat.succ_mul]
      omega

theorem FeedState.branch_spec (p : Kernel) (ch : Channel) :
    (branch ch).InRange p ch ∧ (branch ch).left p ch = ch.numBeats
      ∧ (branch ch).work p ch < FeedProc.branchWork p ch := by
  unfold branch Channel.numBeats FeedProc.branchWork
  cases hmode : ch.mode with
  | FUNC_MODE =>
      refine ⟨⟨hmode, Nat.zero_le _⟩, ?_, Nat.lt_succ_self _⟩
      show ch.numFrames - 0 * p.memRatio = _
      rw [Nat.zero_mul, Nat.sub_zero]
  | PERF_MODE => exact ⟨hmode, FeedProc.round_spec p ch ch.numRep⟩

theorem FeedState.next_func {p : Kernel} {room : Bool} {pc : FeedPc} (hne : pc ≠ .done)
    (memStr : List MemWord) (acts : List Act) : next p ch buff room ⟨.func pc, memStr, acts⟩
      = (feedStep p ch room memStr pc).map fun (pc, memStr, out) =>
        (⟨.func pc, memStr, acts ++ out.map Act.beat⟩, false) := by
  cases pc <;> first | rfl | exact absurd rfl hne

theorem FeedState.counts_func {room : Bool} {pc : FeedPc} {memStr : List MemWord} {acts : List Act}
    (hmode : ch.mode = .FUNC_MODE) (hpc : pc.InRange p ch) (hne : pc ≠ .done)
    (h : next p ch buff room ⟨.func pc, memStr, acts⟩ = some (s', trig)) :
    s'.pc.InRange p ch
      ∧ (beatsOf s'.acts).length + s'.pc.left p ch
        = (beatsOf acts).length + (FeedProc.func pc).left p ch
      ∧ s'.pc.work p ch < (FeedProc.func pc).work p ch := by
  rw [next_func hne] at h
  obtain ⟨⟨pc', memStr', out⟩, hstep, heq⟩ := Option.map_eq_some_iff.mp h
  cases heq
  obtain ⟨hpc', hwrites⟩ := writes_of_feedStep hpc hstep
  have hle := writes_le hpc'
  have hrank := rank_lt_of_feedStep hpc hstep
  refine ⟨⟨hmode, hpc'⟩, ?_, Nat.add_lt_add_right hrank 2⟩
  simp only [FeedProc.left, beatsOf_append, beatsOf_map_beat, List.length_append]
  omega

theorem FeedState.counts_perf {room : Bool} {j i : Nat} {memStr : List MemWord} {acts : List Act}
    (hmode : ch.mode = .PERF_MODE)
    (h : next p ch buff room ⟨.perf (j + 1) i, memStr, acts⟩ = some (s', trig)) :
    s'.pc.InRange p ch
      ∧ (beatsOf s'.acts).length + s'.pc.left p ch
        = (beatsOf acts).length + (FeedProc.perf (j + 1) i).left p ch
      ∧ s'.pc.work p ch < (FeedProc.perf (j + 1) i).work p ch := by
  cases i with
  | zero =>
      cases h
      obtain ⟨hleft, hwork⟩ := FeedProc.round_spec p.toKernel ch j
      exact ⟨hmode, congrArg _ hleft, hwork⟩
  | succ i =>
      simp only [next] at h
      split at h
      · cases h
        refine ⟨hmode, ?_, ?_⟩
        · simp only [FeedProc.left, beatsOf_append, List.length_append]
          show _ + 1 + _ = _
          omega
        · simp only [FeedProc.work]
          omega
      · cases h

/-- Each statement brings `feed` nearer to its end, and counts on by the stream words it writes. -/
theorem FeedState.counts_of_next {room : Bool} (hin : s.pc.InRange p ch)
    (h : next p ch buff room s = some (s', trig)) :
    s'.pc.InRange p ch
      ∧ (beatsOf s'.acts).length + s'.pc.left p ch = (beatsOf s.acts).length + s.pc.left p ch
      ∧ s'.pc.work p ch < s.pc.work p ch := by
  obtain ⟨pc, memStr, acts⟩ := s
  cases pc with
  | wait count =>
      cases count with
      | zero =>
          cases h
          exact ⟨trivial, rfl, by simp only [goto, FeedProc.work]; omega⟩
      | succ count =>
          cases h
          exact ⟨trivial, rfl, by simp only [goto, FeedProc.work]; omega⟩
  | first =>
      cases h
      obtain ⟨hrange, hleft, hwork⟩ := branch_spec p.toKernel ch
      refine ⟨hrange, ?_, hwork⟩
      show (beatsOf (acts ++ [.trigger])).length + (branch ch).left p ch = _
      rw [hleft, beatsOf_append, beatsOf_trigger, List.append_nil]
      rfl
  | func pc =>
      by_cases hdone : pc = .done
      · subst hdone
        cases h
        refine ⟨trivial, ?_, Nat.lt_succ_self 1⟩
        show _ = _ + (ch.numFrames - ch.numFrames)
        rw [Nat.sub_self]
        rfl
      · exact counts_func hin.1 hin.2 hdone h
  | perf j i =>
      cases j with
      | zero =>
          cases h
          exact ⟨trivial, rfl, Nat.lt_succ_self 1⟩
      | succ j => exact counts_perf hin h
  | last =>
      cases h
      refine ⟨trivial, ?_, Nat.one_pos⟩
      show (beatsOf (acts ++ [.trigger])).length + 0 = _
      rw [beatsOf_append, beatsOf_trigger, List.append_nil]
      rfl
  | returned => cases h

structure FeedState.Counts (p : Kernel) (ch : Channel) (s : FeedState) : Prop where
  inRange : s.pc.InRange p ch
  total : (beatsOf s.acts).length + s.pc.left p ch = ch.numBeats

theorem FeedState.counts_init (p : Kernel) (ch : Channel) : (init ch).Counts p ch :=
  ⟨trivial, Nat.zero_add _⟩

theorem FeedState.Counts.step {l : FeedLabel} (hI : s.Counts p ch)
    (h : (feed p ch buff).step l s = some (s', trig)) : s'.Counts p ch := by
  cases l with
  | mem data =>
      cases h
      exact ⟨hI.inRange, hI.total⟩
  | step room =>
      obtain ⟨hin, htotal, -⟩ := FeedState.counts_of_next hI.inRange h
      exact ⟨hin, htotal.trans hI.total⟩

variable (p ch buff) in
/-- With room on the AXI stream and a memory word there, `feed` has returned or can go on. -/
theorem FeedState.enabled (hin : s.pc.InRange p ch) (hmem : s.memStr ≠ []) :
    s.pc = .returned ∨ ∃ s' trig, next p ch buff true s = some (s', trig) := by
  obtain ⟨pc, memStr, acts⟩ := s
  cases pc with
  | wait count => cases count <;> exact Or.inr ⟨_, _, rfl⟩
  | first => exact Or.inr ⟨_, _, rfl⟩
  | func pc =>
      by_cases hdone : pc = .done
      · subst hdone
        exact Or.inr ⟨_, _, rfl⟩
      · rcases feedStep_enabled memStr hin.2 with h | ⟨pc', memStr', out, hstep⟩ | ⟨hnil, -⟩
        · exact absurd h hdone
        · exact Or.inr ⟨_, _, by rw [next_func hdone, hstep]; rfl⟩
        · exact absurd hnil hmem
  | perf j i =>
      cases j with
      | zero => exact Or.inr ⟨_, _, rfl⟩
      | succ j => cases i <;> exact Or.inr ⟨_, _, rfl⟩
  | last => exact Or.inr ⟨_, _, rfl⟩
  | returned => exact Or.inl rfl

end Feed

section Get

variable {p : Platform} {ch : Channel} {s s' : GetState} {trig : Bool}

/-- A statement reads one stream word at most. -/
theorem getStep_strm {room : Bool} {strm strm' : List Beat} {pc pc' : GetPc} {out : List MemWord}
    (h : getStep p ch room strm pc = some (pc', strm', out)) :
    strm' = strm ∨ ∃ tmp, strm = tmp :: strm' := by
  unfold getStep at h
  split at h
  · cases h
    exact Or.inl rfl
  · cases h
    exact Or.inl rfl
  · split at h
    · cases h
      exact Or.inl rfl
    · split at h <;> cases h <;> exact Or.inl rfl
  · split at h
    · split at h
      · cases h
      · cases h
        exact Or.inr ⟨_, rfl⟩
    · cases h
      exact Or.inl rfl
  · split at h <;> cases h
    exact Or.inl rfl
  · split at h
    · split at h
      · cases h
      · cases h
        exact Or.inr ⟨_, rfl⟩
    · cases h
      exact Or.inl rfl
  · split at h <;> cases h
    exact Or.inl rfl
  · cases h

/-- How far `get` is: before the first stream word, between that and its trigger, after the trigger,
at the last trigger, at its end. -/
def GetProc.stage : GetProc → Nat
  | .wait _ => 0
  | .func _ firstData => if firstData then 0 else 2
  | .funcMark _ => 1
  | .perf _ _ firstData => if firstData then 0 else 2
  | .perfMark _ _ => 1
  | .after firstData => if firstData then 0 else 2
  | .last => 3
  | .returned => 4

inductive GetState.Moves (s s' : GetState) : Bool → Prop where
  | quiet (hstage : s'.pc.stage = s.pc.stage ∨ s.pc.stage = 2 ∧ s'.pc.stage = 3)
      (hacts : s'.acts = s.acts) : Moves s s' false
  | first {b : Beat} (hstage : s.pc.stage = 0) (hstage' : s'.pc.stage = 1)
      (hacts : s'.acts = s.acts ++ [.beat b]) : Moves s s' false
  | beat {b : Beat} (hstage : s.pc.stage = 2) (hstage' : s'.pc.stage = 2)
      (hacts : s'.acts = s.acts ++ [.beat b]) : Moves s s' false
  | trigger (hstage : s.pc.stage = 1 ∧ s'.pc.stage = 2 ∨ s.pc.stage = 0 ∧ s'.pc.stage = 3
        ∨ s.pc.stage = 3 ∧ s'.pc.stage = 4)
      (hacts : s'.acts = s.acts ++ [.trigger]) : Moves s s' true

theorem GetState.next_moves {room : Bool} (h : next p ch room s = some (s', trig)) :
    s.Moves s' trig := by
  unfold GetState.next at h
  split at h <;> rename_i hpc
  · cases h
    exact .quiet (Or.inl (by rw [hpc]; rfl)) rfl
  · cases h
    refine .quiet (Or.inl ?_) rfl
    rw [hpc]
    show (GetState.branch ch).stage = 0
    unfold GetState.branch
    cases ch.mode <;> rfl
  · cases h
    exact .quiet (Or.inl (by rw [hpc]; rfl)) rfl
  · rename_i pc firstData _
    obtain ⟨⟨pc', strm', out⟩, hstep, heq⟩ := Option.map_eq_some_iff.mp h
    cases heq
    rcases getStep_strm hstep with rfl | ⟨tmp, hread⟩
    · refine .quiet (Or.inl ?_) (by simp)
      rw [hpc]
      simp [GetState.afterRead, GetProc.stage]
    · cases firstData with
      | true =>
          refine .first (b := tmp) (by rw [hpc]; rfl) ?_ ?_
          · simp [GetState.afterRead, GetProc.stage, hread]
          · simp [hread]
      | false =>
          refine .beat (b := tmp) (by rw [hpc]; rfl) ?_ ?_
          · simp [GetState.afterRead, GetProc.stage]
          · simp [hread]
  · cases h
    exact .trigger (Or.inl ⟨by rw [hpc]; rfl, rfl⟩) rfl
  · cases h
    exact .quiet (Or.inl (by rw [hpc]; rfl)) rfl
  · cases h
    exact .quiet (Or.inl (by rw [hpc]; rfl)) rfl
  · rename_i firstData
    split at h
    · cases h
    · cases h
      cases firstData with
      | true => exact .first (by rw [hpc]; rfl) rfl rfl
      | false => exact .beat (by rw [hpc]; rfl) rfl rfl
  · cases h
    exact .trigger (Or.inl ⟨by rw [hpc]; rfl, rfl⟩) rfl
  · cases h
    exact .trigger (Or.inr (Or.inl ⟨by rw [hpc]; rfl, rfl⟩)) rfl
  · cases h
    exact .quiet (Or.inr ⟨by rw [hpc]; rfl, rfl⟩) rfl
  · cases h
    exact .trigger (Or.inr (Or.inr ⟨by rw [hpc]; rfl, rfl⟩)) rfl
  · cases h

def Marked (acts : List Act) : Prop :=
  ∃ b, ∃ bs : List Beat, acts = .beat b :: .trigger :: bs.map .beat

/-- One trigger right behind the first stream word, or at the end where there is none, and one
behind all. -/
def GetState.Ok (s : GetState) : Prop :=
  (s.pc.stage = 0 ∧ s.acts = [])
  ∨ (s.pc.stage = 1 ∧ ∃ b, s.acts = [.beat b])
  ∨ (s.pc.stage = 2 ∧ Marked s.acts)
  ∨ (s.pc.stage = 3 ∧ (s.acts = [.trigger] ∨ Marked s.acts))
  ∨ (s.pc.stage = 4 ∧ ∃ acts, s.acts = acts ++ [.trigger] ∧ (acts = [.trigger] ∨ Marked acts))

theorem GetState.Ok.moves (hok : s.Ok) (h : s.Moves s' trig) : s'.Ok := by
  cases h with
  | quiet hstage hacts =>
      unfold GetState.Ok
      rw [hacts]
      rcases hstage with hsame | ⟨htwo, hthree⟩
      · rw [hsame]
        exact hok
      · rcases hok with ⟨h, _⟩ | ⟨h, _⟩ | ⟨_, hmarked⟩ | ⟨h, _⟩ | ⟨h, _⟩ <;> try omega
        exact Or.inr (Or.inr (Or.inr (Or.inl ⟨hthree, Or.inr hmarked⟩)))
  | @first b hstage hstage' hacts =>
      rcases hok with ⟨_, hnil⟩ | ⟨h, _⟩ | ⟨h, _⟩ | ⟨h, _⟩ | ⟨h, _⟩ <;> try omega
      exact Or.inr (Or.inl ⟨hstage', b, by rw [hacts, hnil]; rfl⟩)
  | @beat b hstage hstage' hacts =>
      rcases hok with ⟨h, _⟩ | ⟨h, _⟩ | ⟨_, c, bs, hmarked⟩ | ⟨h, _⟩ | ⟨h, _⟩ <;> try omega
      refine Or.inr (Or.inr (Or.inl ⟨hstage', c, bs ++ [b], ?_⟩))
      rw [hacts, hmarked, List.map_append]
      rfl
  | trigger hstage hacts =>
      rcases hstage with ⟨hone, htwo⟩ | ⟨hzero, hthree⟩ | ⟨hthree, hfour⟩
      · rcases hok with ⟨h, _⟩ | ⟨_, b, hb⟩ | ⟨h, _⟩ | ⟨h, _⟩ | ⟨h, _⟩ <;> try omega
        exact Or.inr (Or.inr (Or.inl ⟨htwo, b, [], by rw [hacts, hb]; rfl⟩))
      · rcases hok with ⟨_, hnil⟩ | ⟨h, _⟩ | ⟨h, _⟩ | ⟨h, _⟩ | ⟨h, _⟩ <;> try omega
        exact Or.inr (Or.inr (Or.inr (Or.inl ⟨hthree, Or.inl (by rw [hacts, hnil]; rfl)⟩)))
      · rcases hok with ⟨h, _⟩ | ⟨h, _⟩ | ⟨h, _⟩ | ⟨_, hbefore⟩ | ⟨h, _⟩ <;> try omega
        exact Or.inr (Or.inr (Or.inr (Or.inr ⟨hfour, s.acts, hacts, hbefore⟩)))

theorem GetState.step_adds {l : GetLabel} (h : (get p ch).step l s = some (s', trig)) :
    Adds s.acts trig s'.acts := by
  cases l with
  | aie b =>
      cases h
      exact .quiet _
  | step room =>
      cases GetState.next_moves h with
      | quiet _ hacts => exact hacts ▸ .quiet _
      | @first b _ _ hacts => exact hacts ▸ .beats [b]
      | @beat b _ _ hacts => exact hacts ▸ .beats [b]
      | trigger _ hacts => exact hacts ▸ .trigger

theorem GetState.Ok.step {l : GetLabel} (hok : s.Ok)
    (h : (get p ch).step l s = some (s', trig)) : s'.Ok := by
  cases l with
  | aie b =>
      cases h
      exact hok
  | step room => exact hok.moves (GetState.next_moves h)

/-! #### Its stream words -/

def GetProc.InRange (p : Kernel) (ch : Channel) : GetProc → Prop
  | .func pc _ | .funcMark pc => ch.mode = .FUNC_MODE ∧ pc.InRange p ch
  | .perf _ _ _ | .perfMark _ _ => ch.mode = .PERF_MODE
  | _ => True

def GetProc.left (p : Kernel) (ch : Channel) : GetProc → Nat
  | .wait _ => ch.numBeats
  | .func pc _ | .funcMark pc => ch.numFrames - pc.reads p ch
  | .perf (j + 1) i _ | .perfMark (j + 1) i => j * ch.numFrames + i
  | .perf 0 _ _ | .perfMark 0 _ | .after _ | .last | .returned => 0

/-- Statements `get` still has to make from its branch on, an upper bound. A read may be followed by
one more, the trigger. -/
def GetProc.branchWork (p : Kernel) (ch : Channel) : Nat :=
  match ch.mode with
  | .FUNC_MODE => 2 * (GetPc.head 0).rank p ch + 4
  | .PERF_MODE => 2 * (ch.numRep * (ch.numFrames + 1)) + 5

def GetProc.work (p : Kernel) (ch : Channel) : GetProc → Nat
  | .wait count => count + 1 + branchWork p ch
  | .func pc _ => 2 * pc.rank p ch + 3
  | .funcMark pc => 2 * pc.rank p ch + 4
  | .perf (j + 1) i _ => 2 * (j * (ch.numFrames + 1) + i) + 5
  | .perfMark (j + 1) i => 2 * (j * (ch.numFrames + 1) + i) + 6
  | .perfMark 0 _ => 4
  | .perf 0 _ _ => 3
  | .after _ => 2
  | .last => 1
  | .returned => 0

theorem GetProc.round_spec (p : Kernel) (ch : Channel) (j : Nat) (firstData : Bool) :
    (GetProc.perf j ch.numFrames firstData).left p ch = j * ch.numFrames
      ∧ (GetProc.perf j ch.numFrames firstData).work p ch < 2 * (j * (ch.numFrames + 1)) + 5 := by
  cases j with
  | zero => exact ⟨(Nat.zero_mul _).symm, by simp [work]⟩
  | succ j =>
      refine ⟨(Nat.succ_mul j ch.numFrames).symm, ?_⟩
      show 2 * (j * (ch.numFrames + 1) + ch.numFrames) + 5 < _
      rw [Nat.succ_mul j]
      omega

theorem GetState.branch_spec (p : Kernel) (ch : Channel) :
    (branch ch).InRange p ch ∧ (branch ch).left p ch = ch.numBeats
      ∧ (branch ch).work p ch < GetProc.branchWork p ch := by
  unfold branch Channel.numBeats GetProc.branchWork
  cases hmode : ch.mode with
  | FUNC_MODE =>
      refine ⟨⟨hmode, Nat.zero_le _⟩, ?_, Nat.lt_succ_self _⟩
      show ch.numFrames - 0 * p.memRatio = _
      rw [Nat.zero_mul, Nat.sub_zero]
  | PERF_MODE => exact ⟨hmode, GetProc.round_spec p ch ch.numRep true⟩

theorem GetState.next_func {p : Kernel} {room : Bool} {pc : GetPc} (hne : pc ≠ .done)
    (firstData : Bool) (strm buff : List Beat) (acts : List Act) :
    next p ch room ⟨.func pc firstData, strm, buff, acts⟩
      = (getStep p ch room strm pc).map fun (pc, strm', _) =>
        (⟨afterRead firstData strm strm' pc, strm', buff,
          acts ++ (strm.take (strm.length - strm'.length)).map .beat⟩, false) := by
  cases pc <;> first | rfl | exact absurd rfl hne

/-- Whether or not the trigger comes next. -/
theorem GetState.afterRead_spec (p : Kernel) (firstData : Bool) (strm strm' : List Beat)
    {pc : GetPc} (hmode : ch.mode = .FUNC_MODE) (hpc : pc.InRange p ch) :
    (afterRead firstData strm strm' pc).InRange p ch
      ∧ (afterRead firstData strm strm' pc).left p ch = ch.numFrames - pc.reads p ch
      ∧ (afterRead firstData strm strm' pc).work p ch ≤ 2 * pc.rank p ch + 4 := by
  unfold afterRead
  split
  · exact ⟨⟨hmode, hpc⟩, rfl, Nat.le_refl _⟩
  · exact ⟨⟨hmode, hpc⟩, rfl, Nat.le_succ _⟩

theorem GetState.counts_trigger {pc pc' : GetProc} {strm buff : List Beat} {acts : List Act}
    (hin : pc'.InRange p ch) (hleft : pc'.left p ch = pc.left p ch)
    (hwork : pc'.work p ch < pc.work p ch) :
    pc'.InRange p ch
      ∧ (beatsOf (trigger ⟨pc, strm, buff, acts⟩ pc').acts).length + pc'.left p ch
        = (beatsOf acts).length + pc.left p ch
      ∧ pc'.work p ch < pc.work p ch := by
  refine ⟨hin, ?_, hwork⟩
  rw [hleft]
  simp [trigger]

theorem GetState.counts_func {room : Bool} {pc : GetPc} {firstData : Bool} {strm buff : List Beat}
    {acts : List Act} (hmode : ch.mode = .FUNC_MODE) (hpc : pc.InRange p ch) (hne : pc ≠ .done)
    (h : next p ch room ⟨.func pc firstData, strm, buff, acts⟩ = some (s', trig)) :
    s'.pc.InRange p ch
      ∧ (beatsOf s'.acts).length + s'.pc.left p ch
        = (beatsOf acts).length + (GetProc.func pc firstData).left p ch
      ∧ s'.pc.work p ch < (GetProc.func pc firstData).work p ch := by
  rw [next_func hne] at h
  obtain ⟨⟨pc', strm', out⟩, hstep, heq⟩ := Option.map_eq_some_iff.mp h
  cases heq
  obtain ⟨hpc', hreads⟩ := reads_of_getStep hpc hstep
  have hle := reads_le_numFrames hpc'
  have hrank := rank_lt_of_getStep hpc hstep
  obtain ⟨hrange, hleft, hwork⟩ := afterRead_spec p.toKernel firstData strm strm' hmode hpc'
  refine ⟨hrange, ?_, ?_⟩
  · rw [hleft]
    simp only [GetProc.left, beatsOf_append, beatsOf_map_beat, List.length_append, List.length_take]
    rcases hreads with ⟨rfl, hsame, -⟩ | ⟨tmp, rfl, hnext, -⟩
    · omega
    · rw [List.length_cons]
      omega
  · simp only [GetProc.work] at hwork ⊢
    omega

theorem GetState.counts_perf {room : Bool} {j i : Nat} {firstData : Bool} {strm buff : List Beat}
    {acts : List Act} (hmode : ch.mode = .PERF_MODE)
    (h : next p ch room ⟨.perf (j + 1) i firstData, strm, buff, acts⟩ = some (s', trig)) :
    s'.pc.InRange p ch
      ∧ (beatsOf s'.acts).length + s'.pc.left p ch
        = (beatsOf acts).length + (GetProc.perf (j + 1) i firstData).left p ch
      ∧ s'.pc.work p ch < (GetProc.perf (j + 1) i firstData).work p ch := by
  cases i with
  | zero =>
      cases h
      obtain ⟨hleft, hwork⟩ := GetProc.round_spec p.toKernel ch j firstData
      exact ⟨hmode, congrArg _ hleft, hwork⟩
  | succ i =>
      cases strm with
      | nil => cases h
      | cons tmp strm =>
          cases h
          have hcount : (beatsOf (acts ++ [.beat tmp])).length = (beatsOf acts).length + 1 := by
            rw [beatsOf_append, List.length_append]
            rfl
          cases firstData with
          | true =>
              refine ⟨hmode, ?_, ?_⟩ <;>
                simp only [if_true, GetProc.left, GetProc.work, hcount] <;> omega
          | false =>
              refine ⟨hmode, ?_, ?_⟩ <;>
                simp only [Bool.false_eq_true, if_false, GetProc.left, GetProc.work, hcount] <;>
                omega

/-- Each statement brings `get` nearer to its end, and counts on by the stream words it reads. -/
theorem GetState.counts_of_next {room : Bool} (hin : s.pc.InRange p ch)
    (h : next p ch room s = some (s', trig)) :
    s'.pc.InRange p ch
      ∧ (beatsOf s'.acts).length + s'.pc.left p ch = (beatsOf s.acts).length + s.pc.left p ch
      ∧ s'.pc.work p ch < s.pc.work p ch := by
  obtain ⟨pc, strm, buff, acts⟩ := s
  cases pc with
  | wait count =>
      cases count with
      | zero =>
          cases h
          obtain ⟨hrange, hleft, hwork⟩ := branch_spec p.toKernel ch
          exact ⟨hrange, congrArg _ hleft, Nat.lt_of_lt_of_le hwork (Nat.le_add_left _ _)⟩
      | succ count =>
          cases h
          exact ⟨trivial, rfl, by simp only [goto, GetProc.work]; omega⟩
  | func pc firstData =>
      by_cases hdone : pc = .done
      · subst hdone
        cases h
        refine ⟨trivial, ?_, Nat.lt_succ_self 2⟩
        show _ = _ + (ch.numFrames - ch.numFrames)
        rw [Nat.sub_self]
        rfl
      · exact counts_func hin.1 hin.2 hdone h
  | funcMark pc =>
      cases h
      exact counts_trigger hin rfl (Nat.lt_succ_self _)
  | perf j i firstData =>
      cases j with
      | zero =>
          cases h
          exact ⟨trivial, rfl, Nat.lt_succ_self 2⟩
      | succ j => exact counts_perf hin h
  | perfMark j i =>
      cases h
      cases j with
      | zero => exact counts_trigger hin rfl (Nat.lt_succ_self _)
      | succ j => exact counts_trigger hin rfl (Nat.lt_succ_self _)
  | after firstData =>
      cases firstData with
      | true =>
          cases h
          exact counts_trigger trivial rfl (Nat.lt_succ_self 1)
      | false =>
          cases h
          exact ⟨trivial, rfl, Nat.lt_succ_self 1⟩
  | last =>
      cases h
      exact counts_trigger trivial rfl Nat.one_pos
  | returned => cases h

structure GetState.Counts (p : Kernel) (ch : Channel) (s : GetState) : Prop where
  inRange : s.pc.InRange p ch
  total : (beatsOf s.acts).length + s.pc.left p ch = ch.numBeats

theorem GetState.counts_init (p : Kernel) (ch : Channel) (buff : List Beat) :
    (init ch buff).Counts p ch :=
  ⟨trivial, Nat.zero_add _⟩

theorem GetState.Counts.step {l : GetLabel} (hI : s.Counts p ch)
    (h : (get p ch).step l s = some (s', trig)) : s'.Counts p ch := by
  cases l with
  | aie b =>
      cases h
      exact ⟨hI.inRange, hI.total⟩
  | step room =>
      obtain ⟨hin, htotal, -⟩ := GetState.counts_of_next hI.inRange h
      exact ⟨hin, htotal.trans hI.total⟩

variable (p ch) in
/-- With room in the FIFO and a stream word there, `get` has returned or can go on. -/
theorem GetState.enabled (hstrm : s.strm ≠ []) :
    s.pc = .returned ∨ ∃ s' trig, next p ch true s = some (s', trig) := by
  obtain ⟨pc, strm, buff, acts⟩ := s
  obtain ⟨tmp, strm, rfl⟩ := List.exists_cons_of_ne_nil hstrm
  cases pc with
  | wait count => cases count <;> exact Or.inr ⟨_, _, rfl⟩
  | func pc firstData =>
      by_cases hdone : pc = .done
      · subst hdone
        exact Or.inr ⟨_, _, rfl⟩
      · obtain ⟨pc', strm', out, hstep⟩ :=
          (getStep_enabled_of_cons p.toKernel ch pc tmp strm).resolve_left hdone
        exact Or.inr ⟨_, _, by rw [next_func hdone, hstep]; rfl⟩
  | funcMark pc => exact Or.inr ⟨_, _, rfl⟩
  | perf j i firstData =>
      cases j with
      | zero => exact Or.inr ⟨_, _, rfl⟩
      | succ j => cases i <;> exact Or.inr ⟨_, _, rfl⟩
  | perfMark j i => exact Or.inr ⟨_, _, rfl⟩
  | after firstData => cases firstData <;> exact Or.inr ⟨_, _, rfl⟩
  | last => exact Or.inr ⟨_, _, rfl⟩
  | returned => exact Or.inl rfl

end Get

/-! ### What holds in each state of a channel -/

section Channel

variable {σ ι : Type} {P : Source σ ι} {s : Counted σ}

theorem proc_of_run {Q : σ → Prop}
    (hstep : ∀ l proc proc' trig, Q proc → P.step l proc = some (proc', trig) → Q proc') {proc : σ}
    (hproc : Q proc) (hrun : P.counted.Run (Source.start proc) s) : Q s.proc := by
  refine Lts.RunIf.invariant (I := fun s : Counted σ => Q s.proc) ?_ hrun hproc
  intro l s s' hQ _ h
  cases l with
  | some l =>
      obtain ⟨proc', trig, hproc', rfl⟩ := counted_step_some h
      exact hstep l _ _ _ hQ hproc'
  | none =>
      obtain ⟨_, hcases⟩ := counted_step_none h
      rcases hcases with ⟨_, rfl⟩ | ⟨_, _, rfl⟩ | ⟨_, _, rfl⟩ | ⟨_, _, rfl⟩ <;> exact hQ

/-- Triggers are written and read as they should be: `Whole` is what a process that is `Done` has
done. -/
structure CountedOk (P : Source σ ι) (acts : σ → List Act) (Done : σ → Prop)
    (Whole : List Act → Prop) (s : Counted σ) : Prop where
  whole : Done s.proc → Whole (acts s.proc)
  triggers_le : triggers (acts s.proc) ≤ 2
  kept : triggers (acts s.proc) = s.trigger_strm + s.reads.length
  terminates : triggers (acts s.proc) = 2 →
    ∃ k ≤ 3, ∃ s', P.counted.exec (List.replicate k none) s = some s' ∧ s'.cnt.returned = true
  /-- Process and counter can always be brought to their ends. -/
  returns : ∃ s', P.counted.Run s s' ∧ Done s'.proc ∧ s'.cnt.returned = true
  read : s.cnt.returned = true → CounterRead s

theorem triggers_of_marked {acts : List Act} (h : Marked acts) : triggers acts = 1 := by
  obtain ⟨b, bs, rfl⟩ := h
  rw [show Act.beat b :: .trigger :: bs.map .beat = [.beat b, .trigger] ++ bs.map .beat from rfl,
    triggers_append, triggers_beats]
  rfl

theorem FeedWhole.triggers_eq {n : Nat} {acts : List Act} (h : FeedWhole n acts) :
    triggers acts = 2 := by
  obtain ⟨bs, -, rfl⟩ := h
  rw [← List.singleton_append, triggers_append, triggers_append, triggers_beats]
  rfl

theorem GetWhole.triggers_eq {n : Nat} {acts : List Act} (h : GetWhole n acts) :
    triggers acts = 2 := by
  rcases h with ⟨-, rfl⟩ | ⟨b, bs, -, rfl⟩
  · rfl
  · have hmarked : triggers (.beat b :: .trigger :: bs.map .beat) = 1 :=
      triggers_of_marked ⟨b, bs, rfl⟩
    rw [← List.cons_append, ← List.cons_append, triggers_append, hmarked]
    rfl

theorem FeedState.Ok.triggers_le {s : FeedState} (h : s.Ok) : triggers s.acts ≤ 2 := by
  have hone : ∀ bs : List Beat, triggers (.trigger :: bs.map .beat) = 1 := fun bs => by
    rw [show Act.trigger :: bs.map .beat = [.trigger] ++ bs.map .beat from rfl, triggers_append,
      triggers_beats]
    rfl
  rcases h with ⟨_, hnil⟩ | ⟨_, bs, hbs⟩ | ⟨_, bs, hbs⟩
  · rw [hnil]
    exact Nat.zero_le _
  · rw [hbs, hone]
    omega
  · rw [hbs, ← List.cons_append, triggers_append, hone]
    exact Nat.le_refl _

theorem GetState.Ok.triggers_le {s : GetState} (h : s.Ok) : triggers s.acts ≤ 2 := by
  have hbefore : ∀ {acts : List Act}, acts = [.trigger] ∨ Marked acts → triggers acts = 1 := by
    rintro acts (rfl | hmarked)
    · rfl
    · exact triggers_of_marked hmarked
  rcases h with ⟨_, hnil⟩ | ⟨_, b, hb⟩ | ⟨_, hmarked⟩ | ⟨_, hcases⟩ | ⟨_, acts, hacts, hcases⟩
  · rw [hnil]
    exact Nat.zero_le _
  · rw [hb]
    exact Nat.zero_le _
  · rw [hbefore (Or.inr hmarked)]
    omega
  · rw [hbefore hcases]
    omega
  · rw [hacts, triggers_append, hbefore hcases]
    exact Nat.le_refl _

theorem proc_of_exec {k : Nat} {s' : Counted σ}
    (h : P.counted.exec (List.replicate k none) s = some s') : s'.proc = s.proc := by
  have hrun := Lts.runIf_of_exec (C := fun l _ => l = none)
    (fun _ hl _ => List.eq_of_mem_replicate hl) h
  refine hrun.invariant (I := fun x : Counted σ => x.proc = s.proc) ?_ rfl
  rintro l x x' hx rfl hstep
  obtain ⟨_, hcases⟩ := counted_step_none hstep
  rcases hcases with ⟨_, rfl⟩ | ⟨_, _, rfl⟩ | ⟨_, _, rfl⟩ | ⟨_, _, rfl⟩ <;> exact hx

/-- A process that can always go on to less work gets done, and its counter after it. -/
theorem exists_counted_returned {proc : σ} (Done : σ → Prop) (work : σ → Nat) {written : σ → Nat}
    (hinv : ∀ s, P.counted.Run (Source.start proc) s → CounterInv written s)
    (hgo : ∀ s, P.counted.Run (Source.start proc) s → ¬ Done s.proc →
      ∃ s', P.counted.Run s s' ∧ work s'.proc < work s.proc)
    (hdone : ∀ s, P.counted.Run (Source.start proc) s → Done s.proc → written s.proc = 2)
    (hrun : P.counted.Run (Source.start proc) s) :
    ∃ s', P.counted.Run s s' ∧ Done s'.proc ∧ s'.cnt.returned = true := by
  obtain ⟨s₁, hrun₁, hreach, hdone₁⟩ := Lts.RunIf.exists_of_measure (T := P.counted)
    (C := fun _ _ => True) (I := fun s => P.counted.Run (Source.start proc) s)
    (Q := fun s => Done s.proc) (fun s => work s.proc) (fun s hs hnot => by
      obtain ⟨s', hrun', hlt⟩ := hgo s hs hnot
      exact ⟨s', hrun', hs.trans hrun', hlt⟩) hrun
  obtain ⟨k, -, s', hexec, hreturned⟩ := (hinv s₁ hreach).terminates (hdone s₁ hreach hdone₁)
  exact ⟨s', hrun₁.trans (Lts.run_of_exec hexec), by rwa [proc_of_exec hexec], hreturned⟩

variable {p : Platform} {ch : Channel}

/-! #### `feed` -/

section

variable {buff : List Beat} {s : Counted FeedState}

theorem FeedState.whole_of_returned {x : FeedState} (hok : x.Ok) (hcounts : x.Counts p ch)
    (hpc : x.pc = .returned) : FeedWhole ch.numBeats x.acts := by
  rcases hok with ⟨h, _⟩ | ⟨h, _⟩ | ⟨_, bs, hacts⟩
  · rw [hpc] at h
    cases h
  · rw [hpc] at h
    cases h
  · have htotal := hcounts.total
    rw [hpc, hacts, ← List.singleton_append] at htotal
    simp only [beatsOf_append, beatsOf_trigger, beatsOf_map_beat, List.nil_append,
      List.append_nil] at htotal
    exact ⟨bs, htotal, hacts⟩

theorem feed_inv (hrun : (FeedState.feed p ch buff).counted.Run (Source.start (.init ch)) s) :
    s.proc.Ok ∧ s.proc.Counts p ch ∧ CounterInv (fun proc : FeedState => triggers proc.acts) s :=
  ⟨proc_of_run (fun _ _ _ _ hok h => hok.step h) (Or.inl ⟨rfl, rfl⟩) hrun,
    proc_of_run (fun _ _ _ _ hI h => hI.step h) (FeedState.counts_init _ ch) hrun,
    counterInv_of_run (fun _ _ _ _ h => (FeedState.step_adds h).triggers_eq) rfl hrun⟩

theorem feed_goes_on (hrun : (FeedState.feed p ch buff).counted.Run (Source.start (.init ch)) s)
    (hpc : s.proc.pc ≠ .returned) : ∃ s', (FeedState.feed p ch buff).counted.Run s s'
      ∧ s'.proc.pc.work p ch < s.proc.pc.work p ch := by
  obtain ⟨hok, hcounts, hinv⟩ := feed_inv hrun
  have hroom : s.trigger_strm < Source.triggerDepth := by
    have hle := hok.triggers_le
    have hkept := hinv.written_eq
    unfold Source.triggerDepth
    omega
  have hmem : (FeedState.feed p ch buff).counted.step (some (.mem [])) s
      = some { s with proc := { s.proc with memStr := s.proc.memStr ++ [[]] } } := rfl
  obtain ⟨proc, trig, hnext⟩ := (FeedState.enabled p ch buff
    (s := { s.proc with memStr := s.proc.memStr ++ [[]] }) hcounts.inRange
      (List.append_ne_nil_of_right_ne_nil _ (List.cons_ne_nil _ _))).resolve_left hpc
  obtain ⟨s', hstep, hproc⟩ := counted_step_of (P := FeedState.feed p ch buff) (l := .step true)
    (s := { s with proc := { s.proc with memStr := s.proc.memStr ++ [[]] } }) hnext hroom
  refine ⟨s', .head trivial hmem (.single trivial hstep), ?_⟩
  rw [hproc]
  exact (FeedState.counts_of_next (s := { s.proc with memStr := s.proc.memStr ++ [[]] })
    hcounts.inRange hnext).2.2

theorem feed_counted (hrun : (FeedState.feed p ch buff).counted.Run (Source.start (.init ch)) s) :
    CountedOk (FeedState.feed p ch buff) (·.acts) (·.pc = .returned) (FeedWhole ch.numBeats) s := by
  obtain ⟨hok, hcounts, hinv⟩ := feed_inv hrun
  refine ⟨FeedState.whole_of_returned hok hcounts, hok.triggers_le, hinv.written_eq,
    hinv.terminates, ?_, hinv.read⟩
  refine exists_counted_returned (·.pc = .returned) (fun x : FeedState => x.pc.work p ch)
    (fun s hs => (feed_inv hs).2.2) (fun s hs hnot => feed_goes_on hs hnot)
    (fun s hs hdone => ?_) hrun
  obtain ⟨hok, hcounts, -⟩ := feed_inv hs
  exact (FeedState.whole_of_returned hok hcounts hdone).triggers_eq

end

/-! #### `get` -/

section

variable {buff : List Beat} {s : Counted GetState}

theorem GetState.whole_of_returned {x : GetState} (hok : x.Ok) (hcounts : x.Counts p ch)
    (hpc : x.pc = .returned) : GetWhole ch.numBeats x.acts := by
  rcases hok with ⟨h, _⟩ | ⟨h, _⟩ | ⟨h, _⟩ | ⟨h, _⟩ | ⟨_, acts, hacts, hcases⟩
  · rw [hpc] at h
    cases h
  · rw [hpc] at h
    cases h
  · rw [hpc] at h
    cases h
  · rw [hpc] at h
    cases h
  · have htotal := hcounts.total
    rw [hpc, hacts, beatsOf_append, beatsOf_trigger, List.append_nil] at htotal
    rcases hcases with rfl | ⟨b, bs, rfl⟩
    · exact Or.inl ⟨htotal.symm, hacts⟩
    · refine Or.inr ⟨b, bs, ?_, hacts⟩
      rw [show Act.beat b :: .trigger :: bs.map .beat = [.beat b]
        ++ ([.trigger] ++ bs.map .beat) from
        rfl, beatsOf_append, beatsOf_append, beatsOf_trigger, beatsOf_map_beat, List.nil_append,
        List.length_append] at htotal
      exact (Nat.add_comm _ _).trans htotal

theorem get_inv (hrun : (GetState.get p ch).counted.Run (Source.start (.init ch buff)) s) :
    s.proc.Ok ∧ s.proc.Counts p ch ∧ CounterInv (fun proc : GetState => triggers proc.acts) s :=
  ⟨proc_of_run (fun _ _ _ _ hok h => hok.step h) (Or.inl ⟨rfl, rfl⟩) hrun,
    proc_of_run (fun _ _ _ _ hI h => hI.step h) (GetState.counts_init _ ch buff) hrun,
    counterInv_of_run (fun _ _ _ _ h => (GetState.step_adds h).triggers_eq) rfl hrun⟩

theorem get_goes_on (hrun : (GetState.get p ch).counted.Run (Source.start (.init ch buff)) s)
    (hpc : s.proc.pc ≠ .returned) : ∃ s', (GetState.get p ch).counted.Run s s'
      ∧ s'.proc.pc.work p ch < s.proc.pc.work p ch := by
  obtain ⟨hok, hcounts, hinv⟩ := get_inv hrun
  have hroom : s.trigger_strm < Source.triggerDepth := by
    have hle := hok.triggers_le
    have hkept := hinv.written_eq
    unfold Source.triggerDepth
    omega
  have haie : (GetState.get p ch).counted.step (some (.aie [])) s
      = some { s with proc := { s.proc with strm := s.proc.strm ++ [[]] } } := rfl
  obtain ⟨proc, trig, hnext⟩ := (GetState.enabled p ch
    (s := { s.proc with strm := s.proc.strm ++ [[]] })
      (List.append_ne_nil_of_right_ne_nil _ (List.cons_ne_nil _ _))).resolve_left hpc
  obtain ⟨s', hstep, hproc⟩ := counted_step_of (P := GetState.get p ch) (l := .step true)
    (s := { s with proc := { s.proc with strm := s.proc.strm ++ [[]] } }) hnext hroom
  refine ⟨s', .head trivial haie (.single trivial hstep), ?_⟩
  rw [hproc]
  exact (GetState.counts_of_next (s := { s.proc with strm := s.proc.strm ++ [[]] })
    hcounts.inRange hnext).2.2

theorem get_counted (hrun : (GetState.get p ch).counted.Run (Source.start (.init ch buff)) s) :
    CountedOk (GetState.get p ch) (·.acts) (·.pc = .returned) (GetWhole ch.numBeats) s := by
  obtain ⟨hok, hcounts, hinv⟩ := get_inv hrun
  refine ⟨GetState.whole_of_returned hok hcounts, hok.triggers_le, hinv.written_eq, hinv.terminates,
    ?_, hinv.read⟩
  refine exists_counted_returned (·.pc = .returned) (fun x : GetState => x.pc.work p ch)
    (fun s hs => (get_inv hs).2.2) (fun s hs hnot => get_goes_on hs hnot)
    (fun s hs hdone => ?_) hrun
  obtain ⟨hok, hcounts, -⟩ := get_inv hs
  exact (GetState.whole_of_returned hok hcounts hdone).triggers_eq

end

end Channel

/-! ### `store_perf` -/

section StorePerf

variable {p : Platform}

theorem getElem?_storePerfLoop {k : Nat} {v : Nat → Nat} {perf : List Nat}
    (hfit : p.num_channels * k + p.num_channels ≤ perf.length) (i : Nat) :
    (storePerfLoop p k v perf)[i]?
      = if p.num_channels * k ≤ i ∧ i < p.num_channels * k + p.num_channels then
          some (v (i - p.num_channels * k)) else perf[i]? := by
  suffices h : ∀ n ≤ p.num_channels, ∀ i,
      ((List.range n).foldl (fun perf i => perf.set (i + p.num_channels * k) (v i)) perf).length
          = perf.length
      ∧ ((List.range n).foldl (fun perf i => perf.set (i + p.num_channels * k) (v i)) perf)[i]?
        = if p.num_channels * k ≤ i ∧ i < p.num_channels * k + n then
            some (v (i - p.num_channels * k)) else perf[i]? from (h _ (Nat.le_refl _) i).2
  intro n
  induction n with
  | zero => exact fun _ i => ⟨rfl, by rw [if_neg (by omega)]; rfl⟩
  | succ n ih =>
      intro hn i
      obtain ⟨hlen, hget⟩ := ih (by omega) i
      rw [List.range_succ, List.foldl_append, List.foldl_cons, List.foldl_nil]
      refine ⟨by rw [List.length_set, hlen], ?_⟩
      by_cases heq : i = n + p.num_channels * k
      · rw [heq, List.getElem?_set_self (by rw [hlen]; omega), if_pos (by omega),
          Nat.add_sub_cancel]
      · rw [List.getElem?_set_ne (fun h => heq h.symm), hget]
        by_cases hin : p.num_channels * k ≤ i ∧ i < p.num_channels * k + n
        · rw [if_pos hin, if_pos (by omega)]
        · rw [if_neg hin, if_neg (by omega)]

@[simp]
theorem length_storePerfLoop {k : Nat} {v : Nat → Nat} {perf : List Nat} :
    (storePerfLoop p k v perf).length = perf.length := by
  unfold storePerfLoop
  generalize List.range p.num_channels = is
  induction is generalizing perf with
  | nil => rfl
  | cons i is ih => rw [List.foldl_cons, ih, List.length_set]

def perfBlock (to_aie_ch from_aie_ch : Nat → Counter) (k c : Nat) : Nat :=
  match k with
  | 0 => (to_aie_ch c).firstcc
  | 1 => (to_aie_ch c).lastcc
  | 2 => (from_aie_ch c).firstcc
  | _ => (from_aie_ch c).lastcc

theorem getElem?_storePerf {to_aie_ch from_aie_ch : Nat → Counter} {perf : List Nat}
    (hperf : perf.length = p.num_channels * 4) {k c : Nat} (hk : k < 4) (hc : c < p.num_channels) :
    (storePerf p to_aie_ch from_aie_ch perf)[c + p.num_channels * k]?
      = some (perfBlock to_aie_ch from_aie_ch k c) := by
  have hblock : ∀ j, j < 4 → p.num_channels * j + p.num_channels ≤ perf.length := by
    intro j hj
    rw [hperf, ← Nat.mul_succ]
    exact Nat.mul_le_mul_left _ hj
  -- block `k` is outside block `j`
  have hout : ∀ j, j ≠ k → ¬ (p.num_channels * j ≤ c + p.num_channels * k
      ∧ c + p.num_channels * k < p.num_channels * j + p.num_channels) := by
    intro j hj ⟨hle, hlt⟩
    rcases Nat.lt_or_gt_of_ne hj with hbelow | habove
    · have := Nat.mul_le_mul_left p.num_channels hbelow
      rw [Nat.mul_succ] at this
      omega
    · have := Nat.mul_le_mul_left p.num_channels habove
      rw [Nat.mul_succ] at this
      omega
  have hin : p.num_channels * k ≤ c + p.num_channels * k
      ∧ c + p.num_channels * k < p.num_channels * k + p.num_channels := by omega
  have h0 := hblock 0 (by omega)
  have h1 := hblock 1 (by omega)
  have h2 := hblock 2 (by omega)
  have h3 := hblock 3 (by omega)
  simp only [storePerf]
  rw [getElem?_storePerfLoop (by simpa using h3)]
  obtain rfl | rfl | rfl | rfl : k = 0 ∨ k = 1 ∨ k = 2 ∨ k = 3 := by omega
  · rw [if_neg (hout 3 (by omega)), getElem?_storePerfLoop (by simpa using h2),
      if_neg (hout 2 (by omega)), getElem?_storePerfLoop (by simpa using h1),
      if_neg (hout 1 (by omega)), getElem?_storePerfLoop h0, if_pos hin, Nat.add_sub_cancel]
    rfl
  · rw [if_neg (hout 3 (by omega)), getElem?_storePerfLoop (by simpa using h2),
      if_neg (hout 2 (by omega)), getElem?_storePerfLoop (by simpa using h1), if_pos hin,
      Nat.add_sub_cancel]
    rfl
  · rw [if_neg (hout 3 (by omega)), getElem?_storePerfLoop (by simpa using h2), if_pos hin,
      Nat.add_sub_cancel]
    rfl
  · rw [if_pos hin, Nat.add_sub_cancel]
    rfl

end StorePerf

/-! ### `handleOutputs` -/

section Outputs

variable {p : Platform} {t t' : Transaction} {args : List TestHarnessArgs}

def channelCounters (p : Platform) (to_aie_ch from_aie_ch : Nat → Counter) (a : TestHarnessArgs) :
    Nat × Nat :=
  if a.IsTo p.toSetup then ((to_aie_ch a.toChn).firstcc, (to_aie_ch a.toChn).lastcc)
  else ((from_aie_ch a.fromChn).firstcc, (from_aie_ch a.fromChn).lastcc)

theorem channelCounters_congr {to_aie_ch from_aie_ch : Nat → Counter} {a b : TestHarnessArgs}
    (h : a.idx = b.idx) :
    channelCounters p to_aie_ch from_aie_ch b = channelCounters p to_aie_ch from_aie_ch a := by
  have hto : b.IsTo p.toSetup ↔ a.IsTo p.toSetup := by
    rw [TestHarnessArgs.isTo_iff, TestHarnessArgs.isTo_iff, h]
  have htoChn : b.toChn = a.toChn := by
    unfold TestHarnessArgs.toChn
    rw [h]
  have hfromChn : b.fromChn = a.fromChn := by
    unfold TestHarnessArgs.fromChn
    rw [h]
  simp only [channelCounters, hto, htoChn, hfromChn]

theorem readPerf_storePerf {to_aie_ch from_aie_ch : Nat → Counter} {perf : List Nat}
    (hperf : perf.length = p.num_channels * 4) {k c : Nat} (hk : k < 3) (hc : c < p.num_channels)
    {v : Nat × Nat}
    (h : readPerf p.toSetup (storePerf p to_aie_ch from_aie_ch perf) k c = .ok v) :
    v = (perfBlock to_aie_ch from_aie_ch k c, perfBlock to_aie_ch from_aie_ch (k + 1) c) := by
  have hN := p.channels_le
  have hindex : ∀ j < 4, u32 (c + j * p.num_channels) = c + p.num_channels * j := by
    intro j hj
    have hle : j * p.num_channels ≤ 3 * p.num_channels := Nat.mul_le_mul_right _ (by omega)
    rw [u32_of_lt (by omega), Nat.mul_comm]
  simp only [readPerf, bind_eq_ok, pure, Except.pure, Except.ok.injEq] at h
  obtain ⟨first, hfirst, last, hlast, rfl⟩ := h
  rw [hindex k (by omega), getAt_eq_ok, getElem?_storePerf hperf (by omega) hc] at hfirst
  rw [hindex (k + 1) (by omega), getAt_eq_ok, getElem?_storePerf hperf (by omega) hc] at hlast
  rw [Option.some.inj hfirst, Option.some.inj hlast]

theorem outputTo_perf {a a' : TestHarnessArgs} {perf_map perf_map' : Nat → Option (Nat × Nat)}
    (h : t.outputTo (a, perf_map) = .ok (a', perf_map')) :
    a' = a ∧ (¬ a.IsTo t.setup → perf_map' = perf_map)
    ∧ (a.IsTo t.setup → ∃ v, readPerf t.setup t.perf_ptr 0 a.toChn = .ok v
      ∧ perf_map' = Function.update perf_map a.idx.toNat (some v)) := by
  by_cases hto : a.IsTo t.setup
  · simp only [outputTo, if_pos hto, bind_eq_ok, pure, Except.pure, Except.ok.injEq,
      Prod.mk.injEq] at h
    obtain ⟨v, hv, rfl, rfl⟩ := h
    exact ⟨rfl, fun hno => absurd hto hno, fun _ => ⟨v, hv, rfl⟩⟩
  · simp only [outputTo, if_neg hto, pure, Except.pure, Except.ok.injEq, Prod.mk.injEq] at h
    obtain ⟨rfl, rfl⟩ := h
    exact ⟨rfl, fun _ => rfl, fun h => absurd h hto⟩

theorem outputFrom_perf {a a' : TestHarnessArgs} {perf_map perf_map' : Nat → Option (Nat × Nat)}
    (h : t.outputFrom (a, perf_map) = .ok (a', perf_map')) :
    a'.idx = a.idx ∧ (¬ a.IsFrom t.setup → perf_map' = perf_map)
    ∧ (a.IsFrom t.setup → ∃ v, readPerf t.setup t.perf_ptr 2 a.fromChn = .ok v
      ∧ perf_map' = Function.update perf_map a.idx.toNat (some v)) := by
  by_cases hfrom : a.IsFrom t.setup
  · simp only [outputFrom, if_pos hfrom, bind_eq_ok, pure, Except.pure, Except.ok.injEq,
      Prod.mk.injEq] at h
    obtain ⟨_, -, _, -, v, hv, rfl, rfl⟩ := h
    exact ⟨rfl, fun hno => absurd hfrom hno, fun _ => ⟨v, hv, rfl⟩⟩
  · simp only [outputFrom, if_neg hfrom, pure, Except.pure, Except.ok.injEq, Prod.mk.injEq] at h
    obtain ⟨rfl, rfl⟩ := h
    exact ⟨rfl, fun _ => rfl, fun h => absurd h hfrom⟩

/-- One pass notes the counters of the channel it is about, and no others. -/
theorem outputArgument_perf (hsetup : t.setup = p.toSetup) {to_aie_ch from_aie_ch : Nat → Counter}
    {perf : List Nat} (hperf : perf.length = p.num_channels * 4)
    (hstored : t.perf_ptr = storePerf p to_aie_ch from_aie_ch perf) {a a' : TestHarnessArgs}
    (hchecked : a.Checked p.toSetup) {perf_map perf_map' : Nat → Option (Nat × Nat)}
    (h : outputArgument t perf_map a = .ok (a', perf_map')) :
    perf_map' = Function.update perf_map a.idx.toNat
      (some (channelCounters p to_aie_ch from_aie_ch a)) := by
  have hto : a.IsTo p.toSetup → ∀ v, readPerf t.setup t.perf_ptr 0 a.toChn = .ok v →
      v = channelCounters p to_aie_ch from_aie_ch a := by
    intro hto v hv
    rw [hsetup, hstored] at hv
    rw [readPerf_storePerf hperf (by decide) hto.toChn_lt hv, channelCounters, if_pos hto]
    rfl
  have hfrom : a.IsFrom p.toSetup → ∀ v, readPerf t.setup t.perf_ptr 2 a.fromChn = .ok v →
      v = channelCounters p to_aie_ch from_aie_ch a := by
    intro hfrom v hv
    rw [hsetup, hstored] at hv
    rw [readPerf_storePerf hperf (by decide) hfrom.fromChn_lt hv, channelCounters,
      if_neg fun hto => hto.not_isFrom hfrom]
    rfl
  -- the other block leaves the map alone, before or after
  unfold outputArgument at h
  split at h
  · obtain ⟨⟨b, perf_map₁⟩, h₁, h₂⟩ := bind_eq_ok.mp h
    obtain ⟨rfl, hsame₁, hnew₁⟩ := outputTo_perf h₁
    obtain ⟨_, hsame₂, hnew₂⟩ := outputFrom_perf h₂
    rw [hsetup] at hsame₁ hsame₂ hnew₁ hnew₂
    rcases hchecked.1 with ha | ha
    · obtain ⟨v, hv, rfl⟩ := hnew₁ ha
      rw [hsame₂ ha.not_isFrom, hto ha v (hsetup ▸ hv)]
    · obtain ⟨v, hv, rfl⟩ := hnew₂ ha
      rw [hsame₁ fun h => h.not_isFrom ha, hfrom ha v (hsetup ▸ hv)]
  · obtain ⟨⟨b, perf_map₁⟩, h₁, h₂⟩ := bind_eq_ok.mp h
    obtain ⟨hidx, hsame₁, hnew₁⟩ := outputFrom_perf h₁
    obtain ⟨_, hsame₂, hnew₂⟩ := outputTo_perf h₂
    have hchn : b.toChn = a.toChn := congrArg (·.toNat - PLIO_01_TO_AIE) hidx
    rw [hsetup, TestHarnessArgs.isTo_iff, hidx, ← TestHarnessArgs.isTo_iff] at hsame₂ hnew₂
    rw [hsetup] at hsame₁ hnew₁
    rw [hchn] at hnew₂
    rcases hchecked.1 with ha | ha
    · obtain ⟨v, hv, rfl⟩ := hnew₂ ha
      rw [hsame₁ ha.not_isFrom, hto ha v (hsetup ▸ hv)]
    · obtain ⟨v, hv, rfl⟩ := hnew₁ ha
      rw [hsame₂ fun h => h.not_isFrom ha, hfrom ha v (hsetup ▸ hv)]

/-- `handleOutputs` after `store_perf`: every argument gets the counters of its own channel. -/
theorem handleOutputs_perf (hsetup : t.setup = p.toSetup) {to_aie_ch from_aie_ch : Nat → Counter}
    {perf : List Nat} (hperf : perf.length = p.num_channels * 4)
    (hstored : t.perf_ptr = storePerf p to_aie_ch from_aie_ch perf)
    (hchecked : ∀ a ∈ t.args_rec, a.Checked p.toSetup) (h : t.handleOutputs = .ok t') :
    t'.setup = t.setup ∧ t'.status = t.status
      ∧ ∀ a ∈ t.args_rec,
        t'.perf_map a.idx.toNat = some (channelCounters p to_aie_ch from_aie_ch a) := by
  simp only [handleOutputs, bind_eq_ok, pure, Except.pure, Except.ok.injEq] at h
  obtain ⟨s, hloop, rfl⟩ := h
  refine ⟨rfl, rfl, ?_⟩
  refine foldlM_invariant (I := fun done s => ∀ a ∈ done,
    s.2 a.idx.toNat = some (channelCounters p to_aie_ch from_aie_ch a)) (by simp) ?_ hloop
  rintro done x rest ⟨_, perf_map⟩ s' hargs hI hx
  simp only [bind_eq_ok, Except.ok.injEq] at hx
  obtain ⟨⟨x', perf_map'⟩, hx, rfl⟩ := hx
  have hnew := outputArgument_perf hsetup hperf hstored (hchecked x (by rw [hargs]; simp)) hx
  intro a ha
  show perf_map' a.idx.toNat = _
  rw [hnew]
  by_cases hidx : a.idx = x.idx
  · rw [hidx, Function.update_self, channelCounters_congr hidx]
  · rw [Function.update_of_ne fun h => hidx (UInt16.toNat_inj.mp h)]
    rcases List.mem_append.mp ha with hold | hlast
    · exact hI a hold
    · exact absurd (congrArg (·.idx) (List.mem_singleton.mp hlast)) hidx

end Outputs

/-! ### `handleInputs` -/

section Inputs

variable {p : Platform} {t t' s s' : Transaction} {args : List TestHarnessArgs}

structure Untouched (t s : Transaction) : Prop where
  setup_eq : s.setup = t.setup
  args_eq : s.args_rec = t.args_rec
  perf_eq : s.perf_ptr = t.perf_ptr
  map_eq : s.perf_map = t.perf_map

theorem Untouched.funcArgument {q : Setup} {l l' : FuncLoop} {a : TestHarnessArgs}
    (h : Untouched t l.trans) (hstep : Transaction.funcArgument q l a = .ok l') :
    Untouched t l'.trans := by
  obtain ⟨hsetup, hargs, hperf, hmap⟩ := h
  unfold Transaction.funcArgument at hstep
  split at hstep
  · simp only [bind_eq_ok, pure, Except.pure, Except.ok.injEq] at hstep
    obtain ⟨_, -, _, -, rfl⟩ := hstep
    exact ⟨hsetup, hargs, hperf, hmap⟩
  · split at hstep
    · simp only [bind_eq_ok, pure, Except.pure, Except.ok.injEq] at hstep
      obtain ⟨_, -, _, -, rfl⟩ := hstep
      exact ⟨hsetup, hargs, hperf, hmap⟩
    · cases hstep
      exact ⟨hsetup, hargs, hperf, hmap⟩

theorem Untouched.perfArgument {q : Setup} {a : TestHarnessArgs} (h : Untouched t s)
    (hstep : Transaction.perfArgument q s a = .ok s') : Untouched t s' := by
  obtain ⟨hsetup, hargs, hperf, hmap⟩ := h
  unfold Transaction.perfArgument at hstep
  split at hstep
  · simp only [bind_eq_ok, pure, Except.pure, Except.ok.injEq] at hstep
    obtain ⟨_, -, _, -, rfl⟩ := hstep
    exact ⟨hsetup, hargs, hperf, hmap⟩
  · split at hstep
    · simp only [bind_eq_ok, pure, Except.pure, Except.ok.injEq] at hstep
      obtain ⟨_, -, _, -, rfl⟩ := hstep
      exact ⟨hsetup, hargs, hperf, hmap⟩
    · cases hstep
      exact ⟨hsetup, hargs, hperf, hmap⟩

theorem Untouched.handleModeInputs (h : t.handleModeInputs = .ok s) : Untouched t s := by
  unfold Transaction.handleModeInputs at h
  split at h
  · simp only [handleFuncInputs, bind_eq_ok, pure, Except.pure, Except.ok.injEq] at h
    obtain ⟨_, -, _, -, _, -, l, hloop, rfl⟩ := h
    exact foldlM_invariant (fun _ l => Untouched t l.trans) ⟨rfl, rfl, rfl, rfl⟩
      (fun _ _ _ _ _ _ hI hx => hI.funcArgument hx) hloop
  · simp only [handlePerfInputs] at h
    split at h
    · cases h
    split at h
    · cases h
    simp only [bind_eq_ok] at h
    obtain ⟨_, -, _, -, hloop⟩ := h
    refine foldlM_invariant (fun _ s => Untouched t s) ?_ ?_ hloop
    · exact ⟨rfl, rfl, rfl, rfl⟩
    · exact fun _ _ _ _ _ _ hI hx => hI.perfArgument hx

/-- Whatever the arguments: `handleInputs` records them and leaves room for all counters. -/
theorem handleInputs_perf (hsetup : t.setup = p.toSetup) (h : t.handleInputs args = .ok t') :
    t'.setup = p.toSetup ∧ t'.args_rec = args ∧ t'.perf_ptr.length = p.num_channels * 4
      ∧ ∀ a ∈ args, a.Checked p.toSetup := by
  obtain ⟨hchecked, t₁, hmode, rfl⟩ := handleInputs_eq_ok h
  have hsame := Untouched.handleModeInputs hmode
  refine ⟨hsame.setup_eq.trans hsetup, hsame.args_eq, ?_, hsetup ▸ hchecked⟩
  exact (congrArg List.length hsame.perf_eq).trans (prepared_perf_length args hsetup)

theorem handleInputs_perf_map (h : t.handleInputs args = .ok t') : t'.perf_map = t.perf_map := by
  obtain ⟨-, t₁, hmode, rfl⟩ := handleInputs_eq_ok h
  exact (Untouched.handleModeInputs hmode).map_eq

end Inputs

/-! ### From the trigger to the user -/

/-- The counters of all channels at the end of a run of the PL. -/
structure Measured (p : Platform) (cfg : List Nat) where
  to_aie_ch : Nat → Counted FeedState
  from_aie_ch : Nat → Counted GetState
  feed_run : ∀ c < p.num_channels, ∃ buff,
    (FeedState.feed p ((loadCfg p cfg).to_aie_ch c) buff).counted.Run
      (Source.start (.init ((loadCfg p cfg).to_aie_ch c))) (to_aie_ch c)
  get_run : ∀ c < p.num_channels, ∃ buff,
    (GetState.get p ((loadCfg p cfg).from_aie_ch c)).counted.Run
      (Source.start (.init ((loadCfg p cfg).from_aie_ch c) buff)) (from_aie_ch c)
  feed_returned : ∀ c < p.num_channels, (to_aie_ch c).cnt.returned = true
  get_returned : ∀ c < p.num_channels, (from_aie_ch c).cnt.returned = true
  feed_iters : ∀ c < p.num_channels, (to_aie_ch c).iters < 2 ^ 64
  get_iters : ∀ c < p.num_channels, (from_aie_ch c).iters < 2 ^ 64

namespace Measured

variable {p : Platform} {cfg : List Nat} (m : Measured p cfg)

def counters (a : TestHarnessArgs) : Nat × Nat :=
  channelCounters p (fun c => (m.to_aie_ch c).cnt) (fun c => (m.from_aie_ch c).cnt) a

/-- What the PL leaves of a transaction when it is done, `from_aie_ptr` aside. -/
def done (t : Transaction) (from_aie_ptr : List UInt8) : Transaction :=
  { t with
    status := .TRANSACTION_DONE
    from_aie_ptr
    perf_ptr := storePerf p (fun c => (m.to_aie_ch c).cnt) (fun c => (m.from_aie_ch c).cnt)
      t.perf_ptr }

@[simp]
theorem done_args_rec (t : Transaction) (from_aie_ptr : List UInt8) :
    (m.done t from_aie_ptr).args_rec = t.args_rec := rfl

@[simp]
theorem done_setup (t : Transaction) (from_aie_ptr : List UInt8) :
    (m.done t from_aie_ptr).setup = t.setup := rfl

theorem counters_lt {a : TestHarnessArgs} (h : a.Checked p.toSetup) :
    (m.counters a).1 < (m.counters a).2 ∧ (m.counters a).2 < 2 ^ 64 := by
  unfold counters channelCounters
  by_cases hto : a.IsTo p.toSetup
  · rw [if_pos hto]
    obtain ⟨buff, hrun⟩ := m.feed_run _ hto.toChn_lt
    exact ((feed_counted hrun).read (m.feed_returned _ hto.toChn_lt)).lt
      (m.feed_iters _ hto.toChn_lt)
  · rw [if_neg hto]
    have hchn := (h.1.resolve_left hto).fromChn_lt
    obtain ⟨buff, hrun⟩ := m.get_run _ hchn
    exact ((get_counted hrun).read (m.get_returned _ hchn)).lt (m.get_iters _ hchn)

end Measured

theorem cycles_pos {t : Transaction} {idx : UInt16} {first last : Nat}
    (h : t.perf_map idx.toNat = some (first, last)) (hlt : first < last) (hlast : last < 2 ^ 64) :
    0 < t.cycles idx := by
  simp only [Transaction.cycles, h]
  rw [show last + 2 ^ 64 - first = last - first + 2 ^ 64 by omega, u64, Nat.add_mod_right,
    Nat.mod_eq_of_lt (by omega)]
  omega

/-- The triggers of `feed` and of `get` bracket the stream words of their channel, their counter
reads both and ends, and the user of a transaction that is done finds under each of its channels
that channel's counters, whose difference is not zero. -/
theorem perf_counters (p : Platform) :
    (∀ ch buff s, (FeedState.feed p ch buff).counted.Run (Source.start (.init ch)) s →
      CountedOk (FeedState.feed p ch buff) (·.acts) (·.pc = .returned) (FeedWhole ch.numBeats) s)
    ∧ (∀ ch buff s, (GetState.get p ch).counted.Run (Source.start (.init ch buff)) s →
      CountedOk (GetState.get p ch) (·.acts) (·.pc = .returned) (GetWhole ch.numBeats) s)
    ∧ ∀ (t t' t'' : Transaction) (args : List TestHarnessArgs) (from_aie_ptr : List UInt8)
      (m : Measured p t'.cfg_ptr), t.setup = p.toSetup →
      t.handleInputs args = .ok t' → (m.done t' from_aie_ptr).handleOutputs = .ok t'' →
      t''.status = .TRANSACTION_DONE ∧ ∀ a ∈ args,
        t''.perf_map a.idx.toNat = some (m.counters a)
        ∧ (m.counters a).1 < (m.counters a).2 ∧ 0 < t''.cycles a.idx := by
  refine ⟨fun _ _ _ hrun => feed_counted hrun, fun _ _ _ hrun => get_counted hrun, ?_⟩
  intro t t' t'' args from_aie_ptr m hsetup hinputs houtputs
  obtain ⟨hsetup', hargs, hperf, hchecked⟩ := handleInputs_perf hsetup hinputs
  have hchecked' : ∀ a ∈ (m.done t' from_aie_ptr).args_rec, a.Checked p.toSetup := fun a ha =>
    hchecked a (hargs ▸ ha)
  obtain ⟨-, hstatus, hmap⟩ := handleOutputs_perf (t := m.done t' from_aie_ptr) hsetup' hperf rfl
    hchecked' houtputs
  refine ⟨hstatus, fun a ha => ?_⟩
  have hcounters := hmap a (show a ∈ t'.args_rec from hargs ▸ ha)
  have hlt := m.counters_lt (hchecked a ha)
  exact ⟨hcounters, hlt.1, cycles_pos hcounters hlt.1 hlt.2⟩

abbrev Ended {σ : Type} (s : Counted σ) : Prop := s.cnt.returned = true ∧ s.iters < 2 ^ 64

def Measured.sole {cfg : List Nat} {ch ch' : Channel} {to_aie_ch : Counted FeedState}
    {from_aie_ch : Counted GetState} (hto : loadChannel solePlatform cfg 0 0 = ch)
    (hfrom : loadChannel solePlatform cfg 4 0 = ch')
    (hfeed : (FeedState.feed solePlatform ch []).counted.Run (Source.start (.init ch)) to_aie_ch)
    (hget : (GetState.get solePlatform ch').counted.Run (Source.start (.init ch' [])) from_aie_ch)
    (hfeed' : Ended to_aie_ch) (hget' : Ended from_aie_ch) : Measured solePlatform cfg where
  to_aie_ch _ := to_aie_ch
  from_aie_ch _ := from_aie_ch
  feed_run c hc := ⟨[], by
    obtain rfl := Nat.lt_one_iff.mp hc
    change (FeedState.feed _ (loadChannel _ _ 0 0) _).counted.Run
      (Source.start (.init (loadChannel _ _ 0 0))) _
    rw [hto]
    exact hfeed⟩
  get_run c hc := ⟨[], by
    obtain rfl := Nat.lt_one_iff.mp hc
    change (GetState.get _ (loadChannel _ _ 4 0)).counted.Run
      (Source.start (.init (loadChannel _ _ 4 0) _)) _
    rw [hfrom]
    exact hget⟩
  feed_returned _ _ := hfeed'.1
  get_returned _ _ := hget'.1
  feed_iters _ _ := hfeed'.2
  get_iters _ _ := hget'.2

/-- One channel to the AIE is measured, and its transaction done. -/
theorem exists_measured_sole : ∃ t' t'', (soleTransaction .PERF_MODE).handleInputs
      [soleArgument 1 (by decide)] = .ok t' ∧
    ∃ m : Measured solePlatform t'.cfg_ptr, (m.done t' []).handleOutputs = .ok t'' := by
  obtain ⟨t', hinputs, htest⟩ := exists_of_test (e := (soleTransaction .PERF_MODE).handleInputs
    [soleArgument 1 (by decide)]) (fun t' : Transaction => decide
      (loadChannel solePlatform t'.cfg_ptr 0 0 = ⟨.PERF_MODE, 1, 1, 0, 0⟩
        ∧ loadChannel solePlatform t'.cfg_ptr 4 0 = ⟨.PERF_MODE, 0, 0, 0, 0⟩)) (by decide +kernel)
  obtain ⟨hto, hfrom⟩ := of_decide_eq_true htest
  obtain ⟨to_aie_ch, hfeed, hfeed'⟩ := Lts.exists_run (P := Ended)
    (T := (FeedState.feed solePlatform ⟨.PERF_MODE, 1, 1, 0, 0⟩ []).counted)
    (s := Source.start (.init ⟨.PERF_MODE, 1, 1, 0, 0⟩))
    (List.replicate 6 (some (.step true)) ++ List.replicate 3 none) (by decide)
  obtain ⟨from_aie_ch, hget, hget'⟩ := Lts.exists_run (P := Ended)
    (T := (GetState.get solePlatform ⟨.PERF_MODE, 0, 0, 0, 0⟩).counted)
    (s := Source.start (.init ⟨.PERF_MODE, 0, 0, 0, 0⟩ []))
    (List.replicate 4 (some (.step true)) ++ List.replicate 3 none) (by decide)
  let m : Measured solePlatform t'.cfg_ptr := .sole hto hfrom hfeed hget hfeed' hget'
  obtain ⟨hsetup', hargs, hperf, -⟩ := handleInputs_perf (p := solePlatform)
    (t := soleTransaction .PERF_MODE) rfl hinputs
  obtain ⟨t'', houtputs, -⟩ := handleOutputs_ok (t := m.done t' []) hsetup'
    (by simpa [Measured.done, storePerf] using hperf) (by
      intro a ha hafrom
      rw [Measured.done_args_rec, hargs, List.mem_singleton] at ha
      rw [Measured.done_setup, hsetup', ha] at hafrom
      exact absurd hafrom (by decide))
  exact ⟨t', t'', hinputs, m, houtputs⟩

theorem perf_counters_sole : ∃ t' t'', (soleTransaction .PERF_MODE).handleInputs
      [soleArgument 1 (by decide)] = .ok t' ∧
    ∃ m : Measured solePlatform t'.cfg_ptr, (m.done t' []).handleOutputs = .ok t'' ∧
      t''.perf_map 0 = some (m.counters (soleArgument 1 (by decide))) ∧ 0 < t''.cycles 0 := by
  obtain ⟨t', t'', hinputs, m, houtputs⟩ := exists_measured_sole
  obtain ⟨-, hall⟩ :=
    (perf_counters solePlatform).2.2 (soleTransaction .PERF_MODE) t' t'' _ [] m rfl hinputs houtputs
  obtain ⟨hmap, -, hpos⟩ := hall _ (List.mem_singleton.mpr rfl)
  exact ⟨t', t'', hinputs, m, houtputs, hmap, hpos⟩

end AieTestHarness
