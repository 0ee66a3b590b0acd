import AieTestHarness.Proof.Counter

/-!
# Delays between channels

`getDelayBwtween` checks that both indices name channels of the device and takes the difference of
what `handleOutputs` has entered for them. It does not ask whether there is an entry, so a channel
that was not among the arguments counts as one that started in cycle 0.
-/

namespace AieTestHarness

open Slices Loops Transaction

variable {p : Platform} {t t' t'' : Transaction} {args : List TestHarnessArgs} {a b c : UInt16}

/-! ### The channels of the device -/

def Names (args : List TestHarnessArgs) (idx : UInt16) : Prop := ∃ a ∈ args, a.idx = idx

instance (args : List TestHarnessArgs) (idx : UInt16) : Decidable (Names args idx) :=
  inferInstanceAs (Decidable (∃ a ∈ args, a.idx = idx))

def OnDevice (p : Platform) (idx : UInt16) : Prop :=
  idx.toNat < p.num_channels ∨ 36 ≤ idx.toNat ∧ idx.toNat < 36 + p.num_channels

instance (p : Platform) (idx : UInt16) : Decidable (OnDevice p idx) :=
  inferInstanceAs (Decidable (_ ∨ _))

theorem TestHarnessArgs.Checked.onDevice {x : TestHarnessArgs} (h : x.Checked p.toSetup) :
    OnDevice p x.idx :=
  h.1.imp TestHarnessArgs.isTo_iff.mp TestHarnessArgs.isFrom_iff.mp

theorem not_wrongChannels_iff :
    ¬ WrongChannels p.toSetup a b ∧ ¬ WrongChannels p.toSetup b a ↔ OnDevice p a
      ∧ OnDevice p b := by
  have hN := p.channels_le
  unfold WrongChannels OnDevice PLIO_01_TO_AIE PLIO_01_FROM_AIE
  rw [u32_of_lt (by omega), u32_of_lt (by omega)]
  omega

/-! ### The delay -/

/-- The first cycle the map has for a channel. -/
def Transaction.entered (t : Transaction) (idx : UInt16) : UInt64 :=
  UInt64.ofNat ((t.perf_map idx.toNat).getD (0, 0)).1

theorem perfEntry_fst (t : Transaction) (idx : UInt16) :
    UInt64.ofNat (t.perfEntry idx).1.1 = t.entered idx := by
  unfold perfEntry entered
  split <;> rename_i h <;> rw [h] <;> rfl

/-- Looking a channel up leaves every answer as it was. -/
theorem entered_perfEntry (t : Transaction) (idx idx' : UInt16) :
    (t.perfEntry idx).2.entered idx' = t.entered idx' := by
  unfold perfEntry
  split
  · rfl
  · rename_i h
    show UInt64.ofNat ((Function.update t.perf_map idx.toNat (some (0, 0)) idx'.toNat).getD
      (0, 0)).1 = t.entered idx'
    unfold entered
    by_cases heq : idx'.toNat = idx.toNat
    · rw [heq, Function.update_self, h]
      rfl
    · rw [Function.update_of_ne heq]

theorem perfEntry_kept (t : Transaction) (idx : UInt16) :
    (t.perfEntry idx).2.status = t.status ∧ (t.perfEntry idx).2.setup = t.setup
      ∧ (t.perfEntry idx).2.args_rec = t.args_rec := by
  unfold perfEntry
  split <;> exact ⟨rfl, rfl, rfl⟩

def Answers (p : Platform) (t : Transaction) (a b : UInt16) : Prop :=
  t.status = .TRANSACTION_DONE ∧ OnDevice p a ∧ OnDevice p b

theorem getDelayBwtween_ok (hsetup : t.setup = p.toSetup) (h : Answers p t a b) :
    t.getDelayBwtween a b = .ok ((t.entered b - t.entered a).toInt64,
      ((t.perfEntry b).2.perfEntry a).2) := by
  obtain ⟨hab, hba⟩ := not_wrongChannels_iff.mpr h.2
  unfold getDelayBwtween
  rw [if_pos h.1, hsetup, if_neg hab, if_neg hba]
  dsimp only
  rw [perfEntry_fst, perfEntry_fst, entered_perfEntry]

theorem getDelayBwtween_error (hsetup : t.setup = p.toSetup) (h : ¬ Answers p t a b) :
    ∃ message, t.getDelayBwtween a b = .error (.testHarness .INVALID_ARGUMENTS message) := by
  unfold getDelayBwtween
  rw [hsetup]
  split
  · rename_i hdone
    split
    · exact ⟨_, rfl⟩
    · rename_i hab
      split
      · exact ⟨_, rfl⟩
      · rename_i hba
        exact absurd ⟨hdone, not_wrongChannels_iff.mp ⟨hab, hba⟩⟩ h
  · exact ⟨_, rfl⟩

theorem getDelayBwtween_congr (hsetup : t.setup = p.toSetup) (hsetup' : t'.setup = p.toSetup)
    (hstatus : t'.status = t.status) (hentered : ∀ idx, t'.entered idx = t.entered idx)
    (a b : UInt16) :
    (t'.getDelayBwtween a b).map Prod.fst = (t.getDelayBwtween a b).map Prod.fst := by
  by_cases h : Answers p t a b
  · rw [getDelayBwtween_ok hsetup h,
      getDelayBwtween_ok hsetup' ⟨hstatus.trans h.1, h.2⟩, hentered, hentered]
    rfl
  · unfold getDelayBwtween
    rw [hsetup, hsetup', hstatus]
    split
    · rename_i hdone
      split
      · rfl
      · rename_i hab
        split
        · rfl
        · rename_i hba
          exact absurd ⟨hdone, not_wrongChannels_iff.mp ⟨hab, hba⟩⟩ h
    · rfl

theorem toInt_sub_toInt64 {x y : Nat} :
    (UInt64.ofNat x - UInt64.ofNat y).toInt64.toInt = ((x : Int) - y).bmod (2 ^ 64) := by
  rw [← Int64.toInt_toBitVec, UInt64.toBitVec_toInt64, UInt64.toBitVec_sub, BitVec.toInt_sub,
    UInt64.toBitVec_ofNat', UInt64.toBitVec_ofNat', BitVec.toInt_ofNat', BitVec.toInt_ofNat',
    Int.bmod_sub_bmod, Int.sub_bmod_bmod]

/-! ### A transaction and what the PL measured for it -/

namespace Measured

variable {cfg : List Nat} (m : Measured p cfg)

def firstcc (idx : UInt16) : Nat :=
  if idx.toNat < p.num_channels then (m.to_aie_ch idx.toNat).cnt.firstcc
  else (m.from_aie_ch (idx.toNat - PLIO_01_FROM_AIE)).cnt.firstcc

theorem counters_fst (x : TestHarnessArgs) : (m.counters x).1 = m.firstcc x.idx := by
  unfold counters channelCounters firstcc
  by_cases hto : x.IsTo p.toSetup
  · rw [if_pos hto, if_pos (TestHarnessArgs.isTo_iff.mp hto)]
    rfl
  · rw [if_neg hto, if_neg (fun h => hto (TestHarnessArgs.isTo_iff.mpr h))]
    rfl

end Measured

inductive Results where
  | pending
  | handled
  /-- The wait has timed out, and what was copied is no result. -/
  | unmeasured
  deriving DecidableEq

/-- What becomes of a transaction from `handleInputs` on. Its status is set, vectors are received
into it, and its results are handled, once. Meanwhile and afterwards it is asked for delays. -/
inductive Life (p : Platform) (t : Transaction) (m : Measured p t.cfg_ptr) :
    Transaction → Results → Prop where
  | inputs : Life p t m t .pending
  | setStatus {t' : Transaction} {results : Results} (status : TransactionStatus)
      (h : Life p t m t' results)
      (hdone : results = .unmeasured → status ≠ .TRANSACTION_DONE) :
      Life p t m { t' with status } results
  | received {t' : Transaction} (from_aie_ptr : List UInt8) (perf_ptr : List Nat)
      (h : Life p t m t' .pending) : Life p t m { t' with from_aie_ptr, perf_ptr } .pending
  | handled {t' t'' : Transaction} (h : Life p t m t' .pending)
      (hstored : t'.perf_ptr = storePerf p (fun c => (m.to_aie_ch c).cnt)
        (fun c => (m.from_aie_ch c).cnt) t.perf_ptr)
      (houtputs : t'.handleOutputs = .ok t'') : Life p t m t'' .handled
  | unmeasured {t' t'' : Transaction} (h : Life p t m t' .pending)
      (hstatus : t'.status ≠ .TRANSACTION_DONE) (houtputs : t'.handleOutputs = .ok t'') :
      Life p t m t'' .unmeasured
  | asked {t' t'' : Transaction} {results : Results} {a b : UInt16} {delay : Int64}
      (h : Life p t m t' results) (hasked : t'.getDelayBwtween a b = .ok (delay, t'')) :
      Life p t m t'' results

theorem handleOutputs_same (h : t.handleOutputs = .ok t') :
    t'.setup = t.setup ∧ t'.status = t.status := by
  simp only [handleOutputs, bind_eq_ok, pure, Except.pure, Except.ok.injEq] at h
  obtain ⟨out, -, rfl⟩ := h
  exact ⟨rfl, rfl⟩

theorem getDelayBwtween_same {d : Int64} (h : t.getDelayBwtween a b = .ok (d, t')) :
    t'.status = t.status ∧ t'.setup = t.setup ∧ t'.args_rec = t.args_rec
      ∧ ∀ idx, t'.entered idx = t.entered idx := by
  unfold getDelayBwtween at h
  split at h
  · split at h
    · cases h
    · split at h
      · cases h
      · cases h
        have hb := perfEntry_kept t b
        have ha := perfEntry_kept (t.perfEntry b).2 a
        exact ⟨ha.1.trans hb.1, ha.2.1.trans hb.2.1, ha.2.2.trans hb.2.2,
          fun idx => (entered_perfEntry ..).trans (entered_perfEntry ..)⟩
  · cases h

structure Holds (p : Platform) (t : Transaction) (args : List TestHarnessArgs)
    (firstcc : UInt16 → Nat) (results : Results) : Prop where
  setup_eq : t.setup = p.toSetup
  args_eq : results = .pending → t.args_rec = args
  pending : results = .pending → ∀ idx, t.entered idx = 0
  handled : results = .handled → ∀ x ∈ args, t.entered x.idx = UInt64.ofNat (firstcc x.idx)
  unmeasured : results = .unmeasured → t.status ≠ .TRANSACTION_DONE

section Life

variable {t₀ : Transaction} {m : Measured p t'.cfg_ptr} {results : Results}

theorem holds_of_life (hsetup : t.setup = p.toSetup) (hnew : t.perf_map = fun _ => none)
    (hinputs : t.handleInputs args = .ok t') (h : Life p t' m t₀ results) :
    Holds p t₀ args m.firstcc results := by
  obtain ⟨hsetup', hargs, hperf, hchecked⟩ := handleInputs_perf hsetup hinputs
  induction h with
  | inputs =>
      refine ⟨hsetup', fun _ => hargs, fun _ idx => ?_, nofun, nofun⟩
      unfold Transaction.entered
      rw [handleInputs_perf_map hinputs, hnew]
      rfl
  | setStatus status h hdone ih => exact ⟨ih.setup_eq, ih.args_eq, ih.pending, ih.handled, hdone⟩
  | received from_aie_ptr perf_ptr h ih =>
      exact ⟨ih.setup_eq, ih.args_eq, ih.pending, nofun, nofun⟩
  | @handled t₁ t₂ h hstored houtputs ih =>
      have hargs₁ := ih.args_eq rfl
      obtain ⟨hkept, -, hmap⟩ := handleOutputs_perf ih.setup_eq hperf hstored
        (by rw [hargs₁]; exact hchecked) houtputs
      refine ⟨hkept.trans ih.setup_eq, nofun, nofun, fun _ x hx => ?_, nofun⟩
      unfold Transaction.entered
      rw [hmap x (hargs₁ ▸ hx), ← m.counters_fst]
      rfl
  | unmeasured h hstatus houtputs ih =>
      obtain ⟨hkept, hsame⟩ := handleOutputs_same houtputs
      exact ⟨hkept.trans ih.setup_eq, nofun, nofun, nofun, fun _ => hsame ▸ hstatus⟩
  | asked h hasked ih =>
      obtain ⟨hstatus, hkept, hargs', hentered⟩ := getDelayBwtween_same hasked
      exact ⟨hkept.trans ih.setup_eq, fun hp => hargs'.trans (ih.args_eq hp),
        fun hp idx => (hentered idx).trans (ih.pending hp idx),
        fun hh x hx => (hentered x.idx).trans (ih.handled hh x hx),
        fun hu => hstatus ▸ ih.unmeasured hu⟩

end Life

/-! ### What is asked of an answer -/

/-- What is asked of `getDelayBwtween` for the arguments of a transaction and the cycles in which
the PL has seen the first data of each channel. -/
structure DelayOk (t : Transaction) (args : List TestHarnessArgs) (firstcc : UInt16 → Nat)
    (a b : UInt16) : Prop where
  answers : (∃ d u, t.getDelayBwtween a b = .ok (d, u))
    ↔ t.status = .TRANSACTION_DONE ∧ Names args a ∧ Names args b
  /-- The difference, as far as an `int64_t` holds it. -/
  value : ∀ d u, t.getDelayBwtween a b = .ok (d, u) →
    d.toInt = ((firstcc b : Int) - firstcc a).bmod (2 ^ 64)
  throws : ∀ e, t.getDelayBwtween a b = .error e →
    ∃ message, e = .testHarness .INVALID_ARGUMENTS message
  keeps : ∀ d u, t.getDelayBwtween a b = .ok (d, u) → ∀ c c',
    (u.getDelayBwtween c c').map Prod.fst = (t.getDelayBwtween c c').map Prod.fst

/-- A channel of the device that no argument names is asked for when the transaction is done. -/
def AsksUnmeasured (p : Platform) (t : Transaction) (args : List TestHarnessArgs) (a b : UInt16) :
    Prop :=
  t.status = .TRANSACTION_DONE ∧ (OnDevice p a ∧ OnDevice p b) ∧ ¬ (Names args a ∧ Names args b)

/-- Two channels that started in different cycles are asked for when the transaction is done, and
its results have not been handled yet. -/
def AsksEarly (t : Transaction) (args : List TestHarnessArgs) (firstcc : UInt16 → Nat)
    (results : Results) (a b : UInt16) : Prop :=
  t.status = .TRANSACTION_DONE ∧ results = .pending ∧ (Names args a ∧ Names args b)
    ∧ firstcc a ≠ firstcc b

theorem getDelayBwtween_keeps (hsetup : t.setup = p.toSetup) {d : Int64}
    (h : t.getDelayBwtween a b = .ok (d, t')) (c c' : UInt16) :
    (t'.getDelayBwtween c c').map Prod.fst = (t.getDelayBwtween c c').map Prod.fst := by
  obtain ⟨hstatus, hkept, -, hentered⟩ := getDelayBwtween_same h
  exact getDelayBwtween_congr hsetup (hkept.trans hsetup) hstatus hentered c c'

section Asked

variable {firstcc : UInt16 → Nat} {results : Results} {x y : UInt16}

/-- The answers for the channels of the device are right when those for named channels are. -/
theorem delayOk_of_named (hsetup : t.setup = p.toSetup) (hdevice : ∀ x ∈ args, OnDevice p x.idx)
    (hasks : ¬ AsksUnmeasured p t args a b)
    (hvalue : t.status = .TRANSACTION_DONE → Names args a → Names args b →
      (t.entered b - t.entered a).toInt64.toInt = ((firstcc b : Int) - firstcc a).bmod (2 ^ 64)) :
    DelayOk t args firstcc a b := by
  by_cases hans : Answers p t a b
  · have hnames : Names args a ∧ Names args b := by
      by_contra hno
      exact hasks ⟨hans.1, hans.2, hno⟩
    have hok := getDelayBwtween_ok hsetup hans
    refine ⟨iff_of_true ⟨_, _, hok⟩ ⟨hans.1, hnames⟩, fun d u hd => ?_, fun e he => ?_,
      fun d u hd => getDelayBwtween_keeps hsetup hd⟩
    · rw [hok] at hd
      cases hd
      exact hvalue hans.1 hnames.1 hnames.2
    · rw [hok] at he
      cases he
  · obtain ⟨message, herror⟩ := getDelayBwtween_error hsetup hans
    refine ⟨iff_of_false ?_ ?_, fun d u hd => ?_, fun e he => ⟨message, ?_⟩,
      fun d u hd => getDelayBwtween_keeps hsetup hd⟩
    · rintro ⟨d, u, hd⟩
      rw [herror] at hd
      cases hd
    · rintro ⟨hdone, ⟨x, hx, rfl⟩, y, hy, rfl⟩
      exact hans ⟨hdone, hdevice x hx, hdevice y hy⟩
    · rw [herror] at hd
      cases hd
    · rw [herror] at he
      exact (Except.error.inj he).symm

/-- The PL's first cycles fit into 64 bits. -/
theorem Measured.firstcc_lt {cfg : List Nat} (m : Measured p cfg)
    (hchecked : ∀ x ∈ args, x.Checked p.toSetup) (ha : Names args a) : m.firstcc a < 2 ^ 64 := by
  obtain ⟨x, hx, rfl⟩ := ha
  have hlt := m.counters_lt (hchecked x hx)
  rw [m.counters_fst] at hlt
  omega

theorem bmod_sub_eq_zero_iff {x y : Nat} (hx : x < 2 ^ 64) (hy : y < 2 ^ 64) :
    ((y : Int) - x).bmod (2 ^ 64) = 0 ↔ x = y := by
  rw [Int.bmod_def]
  omega

end Asked

def Transaction.delay (t : Transaction) (a b : UInt16) : Except Exn Int64 :=
  (t.getDelayBwtween a b).map Prod.fst

def DelaysAdd (t : Transaction) (a b c : UInt16) : Prop :=
  ∃ ab ba ac bc, t.delay a b = .ok ab ∧ t.delay b a = .ok ba ∧ t.delay a c = .ok ac
    ∧ t.delay b c = .ok bc ∧ ab = -ba ∧ ac = ab + bc

theorem delaysAdd (hsetup : t.setup = p.toSetup) (hdone : t.status = .TRANSACTION_DONE)
    (ha : OnDevice p a) (hb : OnDevice p b) (hc : OnDevice p c) : DelaysAdd t a b c := by
  have hdelay : ∀ {x y}, OnDevice p x → OnDevice p y →
      t.delay x y = .ok (t.entered y - t.entered x).toInt64 := by
    intro x y hx hy
    rw [Transaction.delay, getDelayBwtween_ok hsetup ⟨hdone, hx, hy⟩]
    rfl
  refine ⟨_, _, _, _, hdelay ha hb, hdelay hb ha, hdelay ha hc, hdelay hb hc, ?_, ?_⟩
  · rw [UInt64.toInt64_sub, UInt64.toInt64_sub, Int64.neg_sub]
  · rw [UInt64.toInt64_sub, UInt64.toInt64_sub, UInt64.toInt64_sub]
    grind

/-- A call meets what is asked of it unless the transaction is done and one of the two channels is
one of the device that no argument names, or both are named, started in different cycles, and the
results have not been handled yet. -/
theorem delayOk_iff (p : Platform) (t t' t₀ : Transaction) (args : List TestHarnessArgs)
    (m : Measured p t'.cfg_ptr) (results : Results) (hsetup : t.setup = p.toSetup)
    (hnew : t.perf_map = fun _ => none) (hinputs : t.handleInputs args = .ok t')
    (h : Life p t' m t₀ results) (a b : UInt16) :
    (DelayOk t₀ args m.firstcc a b
      ↔ ¬ AsksUnmeasured p t₀ args a b ∧ ¬ AsksEarly t₀ args m.firstcc results a b)
    ∧ (t₀.status = .TRANSACTION_DONE → Names args a → Names args b →
      ∀ c, Names args c → DelaysAdd t₀ a b c) := by
  have hholds := holds_of_life hsetup hnew hinputs h
  have hchecked := (handleInputs_perf hsetup hinputs).2.2.2
  have hdevice : ∀ x ∈ args, OnDevice p x.idx := fun x hx => (hchecked x hx).onDevice
  have hnamed : ∀ {x}, Names args x → OnDevice p x := by
    rintro _ ⟨x, hx, rfl⟩
    exact hdevice x hx
  refine ⟨⟨fun hok => ⟨?_, ?_⟩, fun ⟨hasks, hearly⟩ => ?_⟩, fun hdone ha hb c hc =>
    delaysAdd hholds.setup_eq hdone (hnamed ha) (hnamed hb) (hnamed hc)⟩
  · rintro ⟨hdone, hdevice, hnames⟩
    exact hnames (hok.answers.mp ⟨_, _, getDelayBwtween_ok hholds.setup_eq ⟨hdone, hdevice⟩⟩).2
  · -- both are answered as if they had started in cycle 0
    rintro ⟨hdone, hpending, ⟨ha, hb⟩, hne⟩
    have hvalue := hok.value _ _
      (getDelayBwtween_ok hholds.setup_eq ⟨hdone, hnamed ha, hnamed hb⟩)
    rw [hholds.pending hpending, hholds.pending hpending] at hvalue
    exact hne ((bmod_sub_eq_zero_iff (m.firstcc_lt hchecked ha) (m.firstcc_lt hchecked hb)).mp
      hvalue.symm)
  · refine delayOk_of_named hholds.setup_eq hdevice hasks fun hdone ha hb => ?_
    cases hresults : results with
    | pending =>
        have heq : m.firstcc a = m.firstcc b := by
          by_contra hne
          exact hearly ⟨hdone, hresults, ⟨ha, hb⟩, hne⟩
        rw [hholds.pending hresults, hholds.pending hresults, heq, Int.sub_self]
        rfl
    | handled =>
        obtain ⟨x, hx, rfl⟩ := ha
        obtain ⟨y, hy, rfl⟩ := hb
        rw [hholds.handled hresults x hx, hholds.handled hresults y hy]
        exact toInt_sub_toInt64
    | unmeasured => exact absurd hdone (hholds.unmeasured hresults)

/-- As the client does it: the status comes first, then the vectors, and then they are handled. -/
theorem Life.done {m : Measured p t.cfg_ptr} {from_aie_ptr : List UInt8}
    (houtputs : (m.done t from_aie_ptr).handleOutputs = .ok t') : Life p t m t' .handled :=
  .handled (.received from_aie_ptr _ (.setStatus .TRANSACTION_DONE .inputs nofun)) rfl houtputs

def pairArgs : List TestHarnessArgs := [soleArgument 1 word_lt, soleOutput 1 word_lt]

/-- Both channels of the one-channel platform are measured, and start in different cycles. -/
theorem exists_measured_pair : ∃ t' t'', (soleTransaction .PERF_MODE).handleInputs pairArgs
    = .ok t' ∧ ∃ m : Measured solePlatform t'.cfg_ptr, m.firstcc 0 = 0 ∧ m.firstcc 36 = 2
      ∧ (m.done t' [1, 2, 3, 4]).handleOutputs = .ok t'' := by
  obtain ⟨t', hinputs, htest⟩ :=
    exists_of_test (e := (soleTransaction .PERF_MODE).handleInputs pairArgs)
    (fun t' : Transaction =>
    decide (loadChannel solePlatform t'.cfg_ptr 0 0 = ⟨.PERF_MODE, 1, 1, 0, 0⟩
      ∧ loadChannel solePlatform t'.cfg_ptr 4 0 = ⟨.PERF_MODE, 1, 1, 0, 0⟩
      ∧ t'.mode = .PERF_MODE ∧ t'.from_mem_word_offset = [0])) (by decide +kernel)
  obtain ⟨hto, hfrom, hmode, hoffs⟩ := of_decide_eq_true htest
  obtain ⟨to_aie_ch, hfeed, hfeed', hfirst⟩ :=
    Lts.exists_run (P := fun s => Ended s ∧ s.cnt.firstcc = 0)
    (T := (FeedState.feed solePlatform ⟨.PERF_MODE, 1, 1, 0, 0⟩ []).counted)
    (s := Source.start (.init ⟨.PERF_MODE, 1, 1, 0, 0⟩))
    (List.replicate 6 (some (.step true)) ++ List.replicate 3 none) (by decide)
  -- the counter has run for two cycles when the word comes
  obtain ⟨from_aie_ch, hget, hget', hfirst'⟩ :=
    Lts.exists_run (P := fun s => Ended s ∧ s.cnt.firstcc = 2)
    (T := (GetState.get solePlatform ⟨.PERF_MODE, 1, 1, 0, 0⟩).counted)
    (s := Source.start (.init ⟨.PERF_MODE, 1, 1, 0, 0⟩ []))
    ([none, none, some (.aie [1, 2, 3, 4])] ++ List.replicate 7 (some (.step true))
      ++ List.replicate 3 none) (by decide)
  let m : Measured solePlatform t'.cfg_ptr := .sole hto hfrom hfeed hget hfeed' hget'
  obtain ⟨hsetup', hargs, hperf, -⟩ := handleInputs_perf (p := solePlatform)
    (t := soleTransaction .PERF_MODE) rfl hinputs
  obtain ⟨t'', houtputs, -⟩ := handleOutputs_ok (t := m.done t' [1, 2, 3, 4]) hsetup'
    (by simpa [Measured.done, storePerf] using hperf) (by
      intro a ha hafrom
      rw [Measured.done_args_rec, hargs] at ha
      rw [Measured.done_setup, hsetup'] at hafrom
      obtain rfl | rfl : a = soleArgument 1 word_lt ∨ a = soleOutput 1 word_lt := by
        simpa [pairArgs] using ha
      · exact absurd hafrom (by decide)
      · have hbytes : outputBytes (m.done t' [1, 2, 3, 4]).setup (m.done t' [1, 2, 3, 4]).mode
            (soleOutput 1 word_lt) = 4 := by
          rw [Measured.done_setup, hsetup', show (m.done t' _).mode = .PERF_MODE from hmode]
          decide
        refine ⟨0, ?_, ?_, ?_, ?_⟩
        · rw [show (m.done t' _).from_mem_word_offset = [0] from hoffs]
          rfl
        · rw [Nat.zero_mul]
          decide
        · rw [hbytes, Nat.zero_mul]
          exact Nat.le_refl 4
        · rw [hbytes]
          decide)
  exact ⟨t', t'', hinputs, m, hfirst, hfirst', houtputs⟩

/-- The channel from the AIE starts two cycles after the one to it. -/
theorem delayOk_iff_pair : ∃ t' t'', (soleTransaction .PERF_MODE).handleInputs pairArgs = .ok t' ∧
    ∃ m : Measured solePlatform t'.cfg_ptr, m.firstcc 0 = 0 ∧ m.firstcc 36 = 2
      ∧ Life solePlatform t' m t'' .handled ∧ t''.status = .TRANSACTION_DONE
      ∧ DelayOk t'' pairArgs m.firstcc 0 36 ∧ DelaysAdd t'' 0 36 0 := by
  obtain ⟨t', t'', hinputs, m, hfirst, hfirst', houtputs⟩ := exists_measured_pair
  have hstatus : t''.status = .TRANSACTION_DONE := (handleOutputs_same houtputs).2
  have hnames : Names pairArgs 0 ∧ Names pairArgs 36 := by decide
  obtain ⟨hiff, hadd⟩ :=
    delayOk_iff solePlatform (soleTransaction .PERF_MODE) t' t'' pairArgs m .handled
    rfl rfl hinputs (.done houtputs) 0 36
  exact ⟨t', t'', hinputs, m, hfirst, hfirst', .done houtputs, hstatus,
    hiff.mpr ⟨fun h => h.2.2 hnames, fun h => nomatch h.2.1⟩,
      hadd hstatus hnames.1 hnames.2 0 hnames.1⟩

/-- The channel from the AIE, which no argument names, is answered for. -/
theorem not_delayOk : ¬ ∀ (p : Platform) (t t' t₀ : Transaction) (args : List TestHarnessArgs)
    (m : Measured p t'.cfg_ptr) (results : Results), t.setup = p.toSetup →
    t.perf_map = (fun _ => none) → t.handleInputs args = .ok t' → Life p t' m t₀ results →
    ∀ a b, DelayOk t₀ args m.firstcc a b := by
  intro hall
  obtain ⟨t', t'', hinputs, m, houtputs⟩ := exists_measured_sole
  have hstatus : t''.status = .TRANSACTION_DONE := (handleOutputs_same houtputs).2
  have hok := hall solePlatform (soleTransaction .PERF_MODE) t' t'' _ m .handled rfl rfl hinputs
    (.done houtputs) 0 36
  have hsetup := (holds_of_life (p := solePlatform) rfl rfl hinputs (.done houtputs)).setup_eq
  have hanswers := getDelayBwtween_ok (a := 0) (b := 36) hsetup ⟨hstatus, by decide⟩
  exact absurd (hok.answers.mp ⟨_, _, hanswers⟩).2.2 (by decide)

end AieTestHarness
