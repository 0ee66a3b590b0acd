import AieTestHarness.Proof.Delay
import AieTestHarness.Proof.Remote

/-!
# Cycles that come from far away

The counters of a run travel with its results. Who asks a transaction that is done for its cycles is
told those of the run it went through, whatever else was under way.
-/

namespace AieTestHarness

open Transaction

namespace TestHarnessArgs

variable (p : Platform) (a : TestHarnessArgs)

def beatCount : Nat := a.repetition.toNat * (a.size / p.word_size)

/-- The stream words stand between the triggers, in the way of the argument's direction. -/
def Brackets (acts : List Act) : Prop :=
  if a.IsTo p.toSetup then FeedWhole (a.beatCount p) acts else GetWhole (a.beatCount p) acts

def channel (chs : Channels) : Channel :=
  if a.IsTo p.toSetup then chs.to_aie_ch a.toChn else chs.from_aie_ch a.fromChn

end TestHarnessArgs

/-- The kernel is told to move the stream words the argument asks for. -/
theorem Posed.numBeats_eq {p : Platform} {t t' : Transaction} {args : List TestHarnessArgs}
    {a : TestHarnessArgs} (hposed : Posed p t args) (hinputs : t.handleInputs args = .ok t')
    (hlimit : t'.getMemoryUsage ≤ 2 ^ 30) (ha : a ∈ args) :
    (a.channel p (loadCfg p t'.cfg_ptr)).numBeats = a.beatCount p := by
  obtain ⟨hsetup, hdistinct, hbuffer, hperf⟩ := hposed
  unfold TestHarnessArgs.channel TestHarnessArgs.beatCount
  cases hmode : t.mode with
  | FUNC_MODE =>
      have hto := funcToLayout_of_handleInputs hsetup hmode hdistinct hinputs hlimit
      have hfrom := funcFromLayout_of_handleInputs hsetup hmode hdistinct hbuffer hinputs hlimit
      rw [(hto.checked a ha).2, Nat.one_mul]
      split <;> rename_i hdir
      · obtain ⟨off, hentry⟩ := hto.listed a ha hdir
        change (loadChannel p t'.cfg_ptr 0 a.toChn).numBeats = _
        have hframes := (toEntry_decoded hto hentry).2.2.2.1
        rw [hentry.channel] at hframes ⊢
        exact hframes
      · have hafrom := (hto.checked a ha).1.1.resolve_left hdir
        obtain ⟨off, hentry, hregion⟩ := hfrom.listed a ha hafrom
        have hframes := (fromDecoded hto ha (hbuffer a ha hafrom) hentry hregion).frames_eq
        change (loadChannel p t'.cfg_ptr 4 a.fromChn).numBeats = _
        rw [hentry.channel] at hframes ⊢
        exact hframes
  | PERF_MODE =>
      obtain ⟨haddr, hsmall⟩ := hperf hmode
      have hlayout := perfLayout_of_handleInputs haddr hsetup hmode hdistinct hinputs
      obtain ⟨hframes, hrep⟩ := hsmall a ha
      have hperfChannel : ∀ chn, (perfChannel p a chn).numBeats
          = a.repetition.toNat * (a.size / p.word_size) := by
        intro chn
        change u32 a.repetition.toNat * u32 (a.size / p.word_size) = _
        rw [u32_of_lt hrep, u32_of_lt hframes]
      split <;> rename_i hdir
      · change (loadChannel p t'.cfg_ptr 0 a.toChn).numBeats = _
        rw [(hlayout.listed_to a ha hdir).1]
        exact hperfChannel _
      · have hchecked := (handleInputs_perf hsetup hinputs).2.2.2 a ha
        change (loadChannel p t'.cfg_ptr 4 a.fromChn).numBeats = _
        rw [(hlayout.listed_from a ha (hchecked.1.resolve_left hdir)).1]
        exact hperfChannel _

namespace HarnessState

variable (p : Platform) (s : HarnessState)

/-- The iterations of the counter of an argument's channel that read a trigger. -/
def marks (a : TestHarnessArgs) : List Nat :=
  if a.IsTo p.toSetup then (s.to_aie_ch a.toChn).reads else (s.from_aie_ch a.fromChn).reads

def acts (a : TestHarnessArgs) : List Act :=
  if a.IsTo p.toSetup then (s.to_aie_ch a.toChn).proc.acts else (s.from_aie_ch a.fromChn).proc.acts

/-- The user is told in which iterations the triggers of each channel were read, and how many lie
between the first ones of two channels. -/
structure Tells (args : List TestHarnessArgs) (t : Transaction) : Prop where
  bracketed : ∀ a ∈ args, a.Brackets p (s.acts p a)
  entries : ∀ a ∈ args, ∃ first last, s.marks p a = [first, last] ∧ first < last
    ∧ t.perf_map a.idx.toNat = some (u64 first, u64 last)
  delays : ∀ a ∈ args, ∀ b ∈ args, ∀ first ∈ (s.marks p a).head?, ∀ first' ∈ (s.marks p b).head?,
    ∃ delay t', t.getDelayBwtween a.idx b.idx = .ok (delay, t')
      ∧ delay.toInt = ((first' : Int) - first).bmod (2 ^ 64)

end HarnessState

namespace Harness

variable {H : Harness} {s : HarnessState} {a : TestHarnessArgs}

/-- What a channel has done when the kernel returns. -/
theorem counted_of_complete (hrun : H.lts.Run H.init s) (hcomplete : H.Complete s)
    (ha : a.Checked H.p.toSetup) (hbeats : (a.channel H.p H.chs).numBeats = a.beatCount H.p) :
    a.Brackets H.p (s.acts H.p a)
      ∧ ∃ first last, s.marks H.p a = [first, last] ∧ first < last
        ∧ channelCounters H.p (fun c => (s.to_aie_ch c).cnt) (fun c => (s.from_aie_ch c).cnt) a
          = (u64 first, u64 last) := by
  unfold HarnessState.acts HarnessState.marks channelCounters TestHarnessArgs.Brackets
  rw [← hbeats, TestHarnessArgs.channel]
  by_cases hto : a.IsTo H.p.toSetup
  · simp only [if_pos hto]
    have hok := feed_counted (loadStream_run hrun a.toChn)
    obtain ⟨hreturned, hcnt⟩ := hcomplete.to_aie_ch _ hto.toChn_lt
    obtain ⟨first, last, hreads, hlt, -, hfirst, hlast⟩ := (hok.read hcnt).reads_eq
    exact ⟨hok.whole hreturned, first, last, hreads, hlt, Prod.ext hfirst hlast⟩
  · simp only [if_neg hto]
    have hok := get_counted (storeStream_run hrun a.fromChn)
    obtain ⟨hreturned, hcnt⟩ := hcomplete.from_aie_ch _ (ha.1.resolve_left hto).fromChn_lt
    obtain ⟨first, last, hreads, hlt, -, hfirst, hlast⟩ := (hok.read hcnt).reads_eq
    exact ⟨hok.whole hreturned, first, last, hreads, hlt, Prod.ext hfirst hlast⟩

end Harness

section Timed

variable {d : Card} {σ : Story} {r : Ref} {t t₁ t₂ : Transaction} {u : Uram d.p} {s : HarnessState}

theorem entered_of_entry {first last : Nat} {idx : UInt16}
    (h : t.perf_map idx.toNat = some (u64 first, u64 last)) :
    t.entered idx = UInt64.ofNat first := by
  unfold entered u64 at *
  rw [h]
  exact UInt64.ofNat_mod_size

/-- The transaction was handed the results of a run, and tells its cycles. -/
def Timed (d : Card) (σ : Story) (r : Ref) (t : Transaction) : Prop :=
  ∃ t₁ u s t₂, Loaded d σ r t₁ ∧ (d.harness u t₁.buffers).lts.Run (d.harness u t₁.buffers).init s
    ∧ (d.harness u t₁.buffers).Complete s
    ∧ (t₁.withResults ((d.harness u t₁.buffers).after s)).handleOutputs = .ok t₂
    ∧ t.args_rec = t₂.args_rec ∧ s.Tells d.p (σ.asked r) t

theorem Handed.timed (h : Handed d σ r t) (hdone : t.status = .TRANSACTION_DONE) :
    Timed d σ r t := by
  obtain ⟨t₁, b, t₂, hloaded, ⟨u, s, hrun, hcomplete, rfl⟩, hout, hbears⟩ := h
  obtain ⟨t₀, hposed, hinputs⟩ := hloaded.made
  obtain ⟨hsetup, hargs, hperf, hchecked⟩ := handleInputs_perf hposed.setup_eq hinputs
  obtain ⟨hsetup', -, hmap⟩ := handleOutputs_perf (t := t₁.withResults _) hsetup hperf rfl
    (fun a ha => hchecked a (by rw [← hargs]; exact ha)) hout
  have hcounted := fun a ha => (d.harness u t₁.buffers).counted_of_complete hrun hcomplete
    (hchecked a ha) (hposed.numBeats_eq hinputs hloaded.limit ha)
  have hentries : ∀ a ∈ σ.asked r, ∃ first last, s.marks d.p a = [first, last] ∧ first < last
      ∧ t.perf_map a.idx.toNat = some (u64 first, u64 last) := by
    intro a ha
    obtain ⟨-, first, last, hmarks, hlt, hcounters⟩ := hcounted a ha
    refine ⟨first, last, hmarks, hlt, ?_⟩
    rw [hbears.perf_map_eq, hmap a (by rw [← hargs] at ha; exact ha)]
    exact congrArg some hcounters
  refine ⟨t₁, u, s, t₂, hloaded, hrun, hcomplete, hout, hbears.args_eq, fun a ha =>
    (hcounted a ha).1, hentries, ?_⟩
  intro a ha b hb first hfirst first' hfirst'
  obtain ⟨i, i', hmarks, -, hentry⟩ := hentries a ha
  obtain ⟨j, j', hmarks', -, hentry'⟩ := hentries b hb
  rw [hmarks] at hfirst
  rw [hmarks'] at hfirst'
  obtain rfl := Option.some.inj hfirst
  obtain rfl := Option.some.inj hfirst'
  have hanswers : Answers d.p t a.idx b.idx :=
    ⟨hdone, (hchecked a ha).onDevice, (hchecked b hb).onDevice⟩
  refine ⟨_, _, getDelayBwtween_ok ?_ hanswers, ?_⟩
  · rw [hbears.setup_eq, hsetup']
    exact hsetup
  · rw [entered_of_entry hentry, entered_of_entry hentry']
    exact toInt_sub_toInt64

end Timed

namespace System

variable {d : Card} {σ : Story} {s : System} {r : Ref} {t : Transaction} {graphs : Nat}
  {monitorInterval : UInt64}

/-- However client, server and kernel interleave: a transaction that its waiter has returned as done
tells the cycles of the run that computed it. -/
theorem timed_of_run (hrun : lts.RunIf (Staged d σ) (.new d.p.toSetup graphs monitorInterval) s)
    (hover : ¬ s.client.main.Over) (ht : s.client.heap r = some t) (hpc : s.client.pc r = .returned)
    (hdone : t.status = .TRANSACTION_DONE) : Timed d σ r t :=
  (handed_of_run hrun hover ht hpc hdone).timed hdone

theorem timed_of_run_sole : ∃ s t,
    lts.RunIf (Staged soleCard soleStory) (.new solePlatform.toSetup 0 0) s
    ∧ s.client.heap 0 = some t ∧ t.status = .TRANSACTION_DONE ∧ Timed soleCard soleStory 0 t := by
  obtain ⟨s, t, hrun, hidle, hpc, ht, hdone, -⟩ := exists_sole_call
  exact ⟨s, t, hrun, ht, hdone, timed_of_run hrun (by rw [hidle]; exact id) ht hpc hdone⟩

end System

end AieTestHarness
