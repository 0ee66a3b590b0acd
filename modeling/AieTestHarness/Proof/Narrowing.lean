import AieTestHarness.Proof.PerfLayout
import AieTestHarness.Proof.FuncLayout
import Mathlib.Data.UInt

/-!
# From 64 bits to 32

The host writes 64-bit configuration words and the PL keeps 32 bits of three of them; the host keeps
32 bits of the offsets it reads results from. What `handleInputs` accepts is not limited to what
survives this.
-/

namespace AieTestHarness

open Loops Transaction

variable {p : Platform} {mode : TestMode} {t t' : Transaction} {args : List TestHarnessArgs}

def listedBefore (args : List TestHarnessArgs) (a : TestHarnessArgs) : List TestHarnessArgs :=
  args.takeWhile fun b => b.idx ≠ a.idx

/-- The memory word `handleInputs` assigns to an argument: in functional mode the words of its
direction before it, in performance mode the region of its channel. -/
def wordOffset (p : Platform) (mode : TestMode) (args : List TestHarnessArgs)
    (a : TestHarnessArgs) :
    Nat :=
  match mode with
  | .FUNC_MODE =>
    if a.IsTo p.toSetup then u64 (wordsOf p (·.IsTo p.toSetup) (listedBefore args a))
    else u64 (wordsOf p (·.IsFrom p.toSetup) (listedBefore args a))
  | .PERF_MODE => perfOffset p.toSetup (if a.IsTo p.toSetup then a.toChn else a.fromChn)

def request (p : Platform) (mode : TestMode) (args : List TestHarnessArgs) (a : TestHarnessArgs) :
    Channel where
  mode := mode
  numFrames := a.size / p.word_size
  numRep := a.repetition.toNat
  offsets := wordOffset p mode args a
  delays := a.delay.toNat

/-- The PL gets what was asked for, and `handleOutputs` reads where the PL stores. -/
structure Untruncated (p : Platform) (mode : TestMode) (args : List TestHarnessArgs)
    (t' : Transaction) : Prop where
  listed_to : ∀ a ∈ args, a.IsTo p.toSetup →
    (loadCfg p t'.cfg_ptr).to_aie_ch a.toChn = request p mode args a
  listed_from : ∀ a ∈ args, a.IsFrom p.toSetup →
    (loadCfg p t'.cfg_ptr).from_aie_ch a.fromChn = request p mode args a
  unlisted_to : ∀ c < p.num_channels, (∀ a ∈ args, a.IsTo p.toSetup → a.toChn ≠ c) →
    ((loadCfg p t'.cfg_ptr).to_aie_ch c).numFrames = 0
  unlisted_from : ∀ c < p.num_channels, (∀ a ∈ args, a.IsFrom p.toSetup → a.fromChn ≠ c) →
    ((loadCfg p t'.cfg_ptr).from_aie_ch c).numFrames = 0
  read_eq : ∀ a ∈ args, a.IsFrom p.toSetup → ∃ off, t'.from_mem_word_offset[a.fromChn]? = some off
    ∧ u32 (off * p.memWidth) = ((loadCfg p t'.cfg_ptr).from_aie_ch a.fromChn).offsets * p.memWidth

/-- Frames, repetitions and offsets fit 32 bits, and so do the bytes before a region that is read
back. -/
def Narrow (p : Platform) (mode : TestMode) (args : List TestHarnessArgs) : Prop :=
  ∀ a ∈ args, a.size / p.word_size < 2 ^ 32 ∧ a.repetition.toNat < 2 ^ 32
    ∧ wordOffset p mode args a < 2 ^ 32
    ∧ (a.IsFrom p.toSetup → wordOffset p mode args a * p.memWidth < 2 ^ 32)

instance : Decidable (Narrow p mode args) := inferInstanceAs (Decidable (∀ a ∈ args, _))

/-! ### What the loops of `handleInputs` write -/

/-- The first configuration block and the channel of an argument. -/
def TestHarnessArgs.slot (p : Platform) (a : TestHarnessArgs) : Nat × Nat :=
  if a.IsTo p.toSetup then (0, a.toChn) else (4, a.fromChn)

def Channel.narrowed (ch : Channel) : Channel :=
  { ch with numFrames := u32 ch.numFrames, numRep := u32 ch.numRep, offsets := u32 ch.offsets }

structure Decoded (p : Platform) (mode : TestMode) (args done : List TestHarnessArgs)
    (cfg offs : List Nat) : Prop where
  cfg_mode : cfgMode cfg = mode
  offs_length : offs.length = p.num_channels
  listed : ∀ a ∈ done,
    loadChannel p cfg (a.slot p).1 (a.slot p).2 = (request p mode args a).narrowed
  offs_eq : ∀ a ∈ done, a.IsFrom p.toSetup
    → offs[a.fromChn]? = some (u32 (wordOffset p mode args a))
  unlisted : ∀ k c, k = 0 ∨ k = 4 → c < p.num_channels → (∀ a ∈ done, a.slot p ≠ (k, c)) →
    (loadChannel p cfg k c).numFrames = 0

section Slot

variable {a b : TestHarnessArgs}

theorem slot_of_to (h : a.IsTo p.toSetup) : a.slot p = (0, a.toChn) := if_pos h

theorem slot_of_from (h : a.IsFrom p.toSetup) : a.slot p = (4, a.fromChn) :=
  if_neg fun hto => hto.not_isFrom h

theorem slot_lt (h : a.IsTo p.toSetup ∨ a.IsFrom p.toSetup) :
    ((a.slot p).1 = 0 ∨ (a.slot p).1 = 4) ∧ (a.slot p).2 < p.num_channels := by
  rcases h with hto | hfrom
  · rw [slot_of_to hto]
    exact ⟨Or.inl rfl, hto.toChn_lt⟩
  · rw [slot_of_from hfrom]
    exact ⟨Or.inr rfl, hfrom.fromChn_lt⟩

/-- Different channels have different places in the configuration. -/
theorem slot_ne (ha : a.IsTo p.toSetup ∨ a.IsFrom p.toSetup)
    (hb : b.IsTo p.toSetup ∨ b.IsFrom p.toSetup) (hne : a.idx ≠ b.idx) : a.slot p ≠ b.slot p := by
  rcases ha with hato | hafrom <;> rcases hb with hbto | hbfrom
  · rw [slot_of_to hato, slot_of_to hbto]
    intro h
    exact TestHarnessArgs.toChn_ne hne (Prod.mk.inj h).2
  · rw [slot_of_to hato, slot_of_from hbfrom]
    simp
  · rw [slot_of_from hafrom, slot_of_to hbto]
    simp
  · rw [slot_of_from hafrom, slot_of_from hbfrom]
    intro h
    exact TestHarnessArgs.fromChn_ne hafrom hbfrom hne (Prod.mk.inj h).2

end Slot

theorem Decoded.snoc {done : List TestHarnessArgs} {x : TestHarnessArgs} {cfg cfg' offs : List Nat}
    (h : Decoded p mode args done cfg offs) (hx : x.IsTo p.toSetup ∨ x.IsFrom p.toSetup)
    (hdone : ∀ a ∈ done, (a.IsTo p.toSetup ∨ a.IsFrom p.toSetup) ∧ a.idx ≠ x.idx)
    (hcfg : WrittenCfg p (x.slot p).1 (x.slot p).2 x (wordOffset p mode args x) cfg cfg') :
    Decoded p mode args (done ++ [x]) cfg'
      (if x.IsTo p.toSetup then offs else offs.set x.fromChn (u32 (wordOffset p mode args x))) := by
  obtain ⟨hslot, hlt⟩ := slot_lt hx
  -- blocks of different slots do not share an entry
  have hother : ∀ k c, k = 0 ∨ k = 4 → (k, c) ≠ x.slot p → c < p.num_channels →
      loadChannel p cfg' k c = loadChannel p cfg k c := by
    intro k c hk hne hc
    refine hcfg.loadChannel_other hc ?_
    by_contra hcon
    exact hne (Prod.ext (by omega) (by omega))
  have hmode : cfgMode cfg' = mode := by
    rw [← h.cfg_mode, cfgMode, cfgMode, hcfg.mode_eq]
  refine ⟨hmode, ?_, fun a ha => ?_, fun a ha hafrom => ?_, fun k c hk hc hnone => ?_⟩
  · split
    · exact h.offs_length
    · rw [List.length_set, h.offs_length]
  · rcases mem_snoc ha with hold | rfl
    · obtain ⟨hchannel, hne⟩ := hdone a hold
      obtain ⟨hk, hc⟩ := slot_lt hchannel
      exact (hother (a.slot p).1 (a.slot p).2 hk (slot_ne hchannel hx hne) hc).trans
        (h.listed a hold)
    · rw [hcfg.loadChannel_self]
      have hcfgMode := h.cfg_mode
      unfold cfgMode at hcfgMode
      rw [hcfgMode]
      rfl
  · rcases mem_snoc ha with hold | rfl
    · have hoff := h.offs_eq a hold hafrom
      split
      · exact hoff
      · rename_i hnot
        rw [List.getElem?_set_ne]
        · exact hoff
        · exact (TestHarnessArgs.fromChn_ne hafrom (hx.resolve_left hnot) (hdone a hold).2).symm
    · rw [if_neg fun hto => hto.not_isFrom hafrom, List.getElem?_set_self]
      rw [h.offs_length]
      exact hafrom.fromChn_lt
  · rw [hother k c hk (fun heq => hnone x (by simp) heq.symm) hc]
    exact h.unlisted k c hk hc fun a ha => hnone a (by simp [ha])

theorem listedBefore_eq {done rest : List TestHarnessArgs} {x : TestHarnessArgs}
    (hdistinct : DistinctChannels (done ++ x :: rest)) :
    listedBefore (done ++ x :: rest) x = done := by
  rw [listedBefore, List.takeWhile_append_of_pos]
  · simp
  · intro a ha
    exact decide_eq_true (hdistinct.ne_of_mem ha)

variable (args) in
theorem decoded_prepared (hsetup : t.setup = p.toSetup) :
    Decoded p t.mode args [] (t.prepared args).cfg_ptr (t.prepared args).from_mem_word_offset where
  cfg_mode := cfgMode_prepared args hsetup
  offs_length := prepared_offset_length args hsetup
  listed := fun _ ha => absurd ha List.not_mem_nil
  offs_eq := fun _ ha => absurd ha List.not_mem_nil
  unlisted := fun k c _ _ _ => by rw [prepared_loadChannel args hsetup]

/-- The next free memory words, modulo `2 ^ 64`. -/
structure FuncOffsets (p : Platform) (done : List TestHarnessArgs) (s : FuncLoop) : Prop where
  to_eq : s.to_mem_word_offt = u64 (wordsOf p (·.IsTo p.toSetup) done)
  from_eq : s.from_mem_word_offt = u64 (wordsOf p (·.IsFrom p.toSetup) done)

theorem u64_add_u64 (m n : Nat) : u64 (u64 m + n) = u64 (m + n) := Nat.mod_add_mod m (2 ^ 64) n

theorem decoded_funcArgument {done rest : List TestHarnessArgs} {x : TestHarnessArgs}
    {s s' : FuncLoop} (hdistinct : DistinctChannels (done ++ x :: rest))
    (hchecked : ∀ a ∈ done ++ x :: rest, a.Checked p.toSetup)
    (h : Decoded p .FUNC_MODE (done ++ x :: rest) done s.trans.cfg_ptr s.trans.from_mem_word_offset)
    (hoff : FuncOffsets p done s) (hstep : funcArgument p.toSetup s x = .ok s') :
    Decoded p .FUNC_MODE (done ++ x :: rest) (done ++ [x]) s'.trans.cfg_ptr
      s'.trans.from_mem_word_offset ∧ FuncOffsets p (done ++ [x]) s' := by
  have hx := (hchecked x (by simp)).1
  have hdone : ∀ a ∈ done, (a.IsTo p.toSetup ∨ a.IsFrom p.toSetup) ∧ a.idx ≠ x.idx := fun a ha =>
    ⟨(hchecked a (List.mem_append_left _ ha)).1, hdistinct.ne_of_mem ha⟩
  by_cases hto : x.IsTo p.toSetup
  · simp only [funcArgument, if_pos hto, bind_eq_ok, memcpy_eq_ok, pure, Except.pure,
      Except.ok.injEq] at hstep
    obtain ⟨cfg', hcfg, mem', -, rfl⟩ := hstep
    have hword : wordOffset p .FUNC_MODE (done ++ x :: rest) x = s.to_mem_word_offt := by
      rw [hoff.to_eq, wordOffset, if_pos hto, listedBefore_eq hdistinct]
    have hwritten : WrittenCfg p (x.slot p).1 (x.slot p).2 x
        (wordOffset p .FUNC_MODE (done ++ x :: rest) x) s.trans.cfg_ptr cfg' := by
      rw [slot_of_to hto, hword]
      exact writtenCfg_of_writeCfg (by omega) hto.toChn_lt hcfg
    have hnext := h.snoc hx hdone hwritten
    rw [if_pos hto] at hnext
    refine ⟨hnext, ?_, ?_⟩
    · rw [hoff.to_eq, u64_add_u64, wordsOf_snoc hto]
    · rw [hoff.from_eq, wordsOf_snoc_of_not hto.not_isFrom]
  · have hfrom := hx.resolve_left hto
    simp only [funcArgument, if_neg hto, if_pos hfrom, bind_eq_ok, setAt_eq_ok, pure, Except.pure,
      Except.ok.injEq] at hstep
    obtain ⟨cfg', hcfg, offs', ⟨-, rfl⟩, rfl⟩ := hstep
    have hword : wordOffset p .FUNC_MODE (done ++ x :: rest) x = s.from_mem_word_offt := by
      rw [hoff.from_eq, wordOffset, if_neg hto, listedBefore_eq hdistinct]
    have hwritten : WrittenCfg p (x.slot p).1 (x.slot p).2 x
        (wordOffset p .FUNC_MODE (done ++ x :: rest) x) s.trans.cfg_ptr cfg' := by
      rw [slot_of_from hfrom, hword]
      exact writtenCfg_of_writeCfg (by omega) hfrom.fromChn_lt hcfg
    have hnext := h.snoc hx hdone hwritten
    rw [if_neg hto, hword] at hnext
    refine ⟨hnext, ?_, ?_⟩
    · rw [hoff.to_eq, wordsOf_snoc_of_not hto]
    · rw [hoff.from_eq, u64_add_u64, wordsOf_snoc hfrom]

theorem decoded_perfArgument {done rest : List TestHarnessArgs} {x : TestHarnessArgs}
    {s s' : Transaction} (hdistinct : DistinctChannels (done ++ x :: rest))
    (hchecked : ∀ a ∈ done ++ x :: rest, a.Checked p.toSetup)
    (h : Decoded p .PERF_MODE (done ++ x :: rest) done s.cfg_ptr s.from_mem_word_offset)
    (hstep : perfArgument p.toSetup s x = .ok s') :
    Decoded p .PERF_MODE (done ++ x :: rest) (done ++ [x]) s'.cfg_ptr s'.from_mem_word_offset := by
  have hx := (hchecked x (by simp)).1
  have hdone : ∀ a ∈ done, (a.IsTo p.toSetup ∨ a.IsFrom p.toSetup) ∧ a.idx ≠ x.idx := fun a ha =>
    ⟨(hchecked a (List.mem_append_left _ ha)).1, hdistinct.ne_of_mem ha⟩
  by_cases hto : x.IsTo p.toSetup
  · simp only [perfArgument, if_pos hto, bind_eq_ok, memcpy_eq_ok, pure, Except.pure,
      Except.ok.injEq] at hstep
    obtain ⟨mem', -, cfg', hcfg, rfl⟩ := hstep
    have hword : wordOffset p .PERF_MODE (done ++ x :: rest) x = perfOffset p.toSetup x.toChn := by
      rw [wordOffset, if_pos hto]
    have hwritten : WrittenCfg p (x.slot p).1 (x.slot p).2 x
        (wordOffset p .PERF_MODE (done ++ x :: rest) x) s.cfg_ptr cfg' := by
      rw [slot_of_to hto, hword]
      exact writtenCfg_of_writeCfg (by omega) hto.toChn_lt hcfg
    have hnext := h.snoc hx hdone hwritten
    rwa [if_pos hto] at hnext
  · have hfrom := hx.resolve_left hto
    simp only [perfArgument, if_neg hto, if_pos hfrom, bind_eq_ok, setAt_eq_ok, pure, Except.pure,
      Except.ok.injEq] at hstep
    obtain ⟨cfg', hcfg, offs', ⟨-, rfl⟩, rfl⟩ := hstep
    have hword : wordOffset p .PERF_MODE (done ++ x :: rest) x
      = perfOffset p.toSetup x.fromChn := by
      rw [wordOffset, if_neg hto]
    have hwritten : WrittenCfg p (x.slot p).1 (x.slot p).2 x
        (wordOffset p .PERF_MODE (done ++ x :: rest) x) s.cfg_ptr cfg' := by
      rw [slot_of_from hfrom, hword]
      exact writtenCfg_of_writeCfg (by omega) hfrom.fromChn_lt hcfg
    have hnext := h.snoc hx hdone hwritten
    rw [if_neg hto, hword, u32_of_lt (n := perfOffset p.toSetup x.fromChn) (u32_lt _)] at hnext
    exact hnext

/-- What `handleInputs` leaves, whatever the sizes. -/
theorem decoded_of_handleInputs (hsetup : t.setup = p.toSetup) (hdistinct : DistinctChannels args)
    (hinputs : t.handleInputs args = .ok t') :
    Decoded p t.mode args args t'.cfg_ptr t'.from_mem_word_offset := by
  obtain ⟨hchecked, t₁, hmode, rfl⟩ := handleInputs_eq_ok hinputs
  rw [hsetup] at hchecked
  have hstart := decoded_prepared args hsetup
  cases hm : t.mode with
  | FUNC_MODE =>
      rw [hm] at hstart
      simp only [handleModeInputs, prepared_mode, hm, handleFuncInputs, prepared_setup, hsetup,
        prepared_args_rec, bind_eq_ok, pure, Except.pure, Except.ok.injEq] at hmode
      obtain ⟨⟨_, _⟩, -, _, -, _, -, s, hloop, rfl⟩ := hmode
      refine (foldlM_invariant (fun done s => Decoded p .FUNC_MODE args done s.trans.cfg_ptr
        s.trans.from_mem_word_offset ∧ FuncOffsets p done s) ⟨hstart, ?_, ?_⟩ ?_ hloop).1
      · rfl
      · rfl
      · rintro done x rest s s' rfl ⟨hI, hoff⟩ hstep
        exact decoded_funcArgument hdistinct hchecked hI hoff hstep
  | PERF_MODE =>
      rw [hm] at hstart
      simp only [handleModeInputs, prepared_mode, hm, handlePerfInputs, prepared_setup, hsetup,
        prepared_args_rec] at hmode
      split at hmode
      · cases hmode
      split at hmode
      · cases hmode
      simp only [bind_eq_ok] at hmode
      obtain ⟨_, -, _, -, hloop⟩ := hmode
      refine foldlM_invariant (fun done s => Decoded p .PERF_MODE args done s.cfg_ptr
        s.from_mem_word_offset) hstart ?_ hloop
      rintro done x rest s s' rfl hI hstep
      exact decoded_perfArgument hdistinct hchecked hI hstep

/-! ### When nothing is lost -/

theorem u32_eq_self_iff {n : Nat} : u32 n = n ↔ n < 2 ^ 32 :=
  ⟨fun h => h ▸ u32_lt n, u32_of_lt⟩

theorem narrowed_eq_iff {ch : Channel} :
    ch.narrowed = ch ↔ ch.numFrames < 2 ^ 32 ∧ ch.numRep < 2 ^ 32 ∧ ch.offsets < 2 ^ 32 := by
  rw [← u32_eq_self_iff, ← u32_eq_self_iff, ← u32_eq_self_iff]
  constructor
  · intro h
    exact ⟨congrArg Channel.numFrames h, congrArg Channel.numRep h, congrArg Channel.offsets h⟩
  · rintro ⟨hframes, hrep, hoff⟩
    rw [Channel.narrowed, hframes, hrep, hoff]

theorem Decoded.untruncated (h : Decoded p mode args args t'.cfg_ptr t'.from_mem_word_offset)
    (hchecked : ∀ a ∈ args, a.IsTo p.toSetup ∨ a.IsFrom p.toSetup) :
    Untruncated p mode args t' ↔ Narrow p mode args := by
  have hto : ∀ a ∈ args, a.IsTo p.toSetup →
      (loadCfg p t'.cfg_ptr).to_aie_ch a.toChn = (request p mode args a).narrowed := by
    intro a ha hato
    have hlisted := h.listed a ha
    rwa [slot_of_to hato] at hlisted
  have hfrom : ∀ a ∈ args, a.IsFrom p.toSetup →
      (loadCfg p t'.cfg_ptr).from_aie_ch a.fromChn = (request p mode args a).narrowed := by
    intro a ha hafrom
    have hlisted := h.listed a ha
    rwa [slot_of_from hafrom] at hlisted
  constructor
  · intro hun a ha
    rcases hchecked a ha with hato | hafrom
    · obtain ⟨hframes, hrep, hoff⟩ :=
        narrowed_eq_iff.mp ((hto a ha hato).symm.trans (hun.listed_to a ha hato))
      exact ⟨hframes, hrep, hoff, fun hafrom => absurd hafrom hato.not_isFrom⟩
    · obtain ⟨hframes, hrep, hoff⟩ :=
        narrowed_eq_iff.mp ((hfrom a ha hafrom).symm.trans (hun.listed_from a ha hafrom))
      refine ⟨hframes, hrep, hoff, fun _ => ?_⟩
      obtain ⟨off, -, hread⟩ := hun.read_eq a ha hafrom
      rw [hun.listed_from a ha hafrom] at hread
      exact hread ▸ u32_lt (off * p.memWidth)
  · intro hnarrow
    have hsame : ∀ a ∈ args, (request p mode args a).narrowed = request p mode args a := fun a ha =>
      narrowed_eq_iff.mpr ⟨(hnarrow a ha).1, (hnarrow a ha).2.1, (hnarrow a ha).2.2.1⟩
    refine ⟨fun a ha hato => (hto a ha hato).trans (hsame a ha),
      fun a ha hafrom => (hfrom a ha hafrom).trans (hsame a ha), fun c hc hnone => ?_,
      fun c hc hnone => ?_, fun a ha hafrom => ?_⟩
    · refine h.unlisted 0 c (Or.inl rfl) hc fun a ha hslot => ?_
      rcases hchecked a ha with hato | hafrom
      · rw [slot_of_to hato] at hslot
        exact hnone a ha hato (Prod.mk.inj hslot).2
      · rw [slot_of_from hafrom] at hslot
        simp at hslot
    · refine h.unlisted 4 c (Or.inr rfl) hc fun a ha hslot => ?_
      rcases hchecked a ha with hato | hafrom
      · rw [slot_of_to hato] at hslot
        simp at hslot
      · rw [slot_of_from hafrom] at hslot
        exact hnone a ha hafrom (Prod.mk.inj hslot).2
    · obtain ⟨-, -, hoff, hbytes⟩ := hnarrow a ha
      refine ⟨_, h.offs_eq a ha hafrom, ?_⟩
      rw [hfrom a ha hafrom, hsame a ha, u32_of_lt hoff]
      exact u32_of_lt (hbytes hafrom)

/-- The PL does what the host was asked for exactly when everything fits. -/
theorem untruncated_iff (hsetup : t.setup = p.toSetup) (hdistinct : DistinctChannels args)
    (hinputs : t.handleInputs args = .ok t') :
    Untruncated p t.mode args t' ↔ Narrow p t.mode args := by
  have hchecked := (handleInputs_eq_ok hinputs).1
  rw [hsetup] at hchecked
  exact (decoded_of_handleInputs hsetup hdistinct hinputs).untruncated
    fun a ha => (hchecked a ha).1

theorem untruncated_iff_sole : ∃ t', (soleTransaction .FUNC_MODE).handleInputs
    [soleOutput 2 (by decide)] = .ok t' ∧
      Untruncated solePlatform .FUNC_MODE [soleOutput 2 (by decide)] t' := by
  obtain ⟨t', hinputs, -⟩ := exists_of_test (e := (soleTransaction .FUNC_MODE).handleInputs
    [soleOutput 2 (by decide)]) (fun _ => true) (by decide +kernel)
  exact ⟨t', hinputs, (untruncated_iff rfl (by decide) hinputs).mpr (by decide +kernel)⟩

/-- `2 ^ 32` repetitions, of which the PL sees none. -/
def manyRepetitions : TestHarnessArgs :=
  { soleOutput 1 (by decide) with repetition := 2 ^ 32 }

theorem not_untruncated : ¬ ∀ (p : Platform) (t t' : Transaction) (args : List TestHarnessArgs),
    t.setup = p.toSetup → DistinctChannels args → t.handleInputs args = .ok t' →
      Untruncated p t.mode args t' := by
  intro hall
  obtain ⟨t', hinputs, -⟩ := exists_of_test (e := (soleTransaction .PERF_MODE).handleInputs
    [manyRepetitions]) (fun _ => true) (by decide +kernel)
  have hlisted := (hall solePlatform _ t' _ rfl (by decide) hinputs).listed_from manyRepetitions
    (List.mem_singleton_self _) (by decide)
  -- the PL never has more than 32 bits of a repetition count
  have hlt : ((loadCfg solePlatform t'.cfg_ptr).from_aie_ch manyRepetitions.fromChn).numRep
    < 2 ^ 32 :=
    u32_lt _
  rw [hlisted] at hlt
  exact absurd hlt (by decide)

end AieTestHarness
