import AieTestHarness.Proof.Inputs
import Mathlib.Algebra.BigOperators.Ring.List
import Mathlib.Algebra.Order.BigOperators.Group.List
import Mathlib.Data.List.Nodup
import Mathlib.Data.List.Perm.Subperm
import Mathlib.Tactic.NormNum

/-!
# The functional mode layout

What `handleInputs` leaves for the PL to read when it accepts a functional mode argument list with
pairwise distinct channels. Each argument to the AIE has its own range of `to_aie_ptr`, from the
memory word its configuration names, and that range holds the user's bytes; each argument from the
AIE has its own range of `from_aie_ptr`, and no two of these meet.
-/

namespace AieTestHarness

open Slices Loops Transaction

variable {p : Platform}

/-! ### Bytes and memory words -/

theorem memWords_eq {a : TestHarnessArgs} (hsize : a.size < 2 ^ 62) :
    a.memWords p.toSetup = (a.size + p.memWidth - 1) / p.memWidth := by
  have := p.memWidth_lt
  unfold TestHarnessArgs.memWords
  rw [u64_of_lt (by omega)]

theorem memWords_mul_le {a : TestHarnessArgs} (hsize : a.size < 2 ^ 62) :
    a.memWords p.toSetup * p.memWidth < a.size + p.memWidth := by
  have hpos := p.memWidth_pos
  have := Nat.div_mul_le_self (a.size + p.memWidth - 1) p.memWidth
  rw [memWords_eq hsize]
  omega

theorem size_le_memWords {a : TestHarnessArgs} (hsize : a.size < 2 ^ 62) :
    a.size ≤ a.memWords p.toSetup * p.memWidth := by
  have hpos := p.memWidth_pos
  have := Nat.lt_div_mul_add (a := a.size + p.memWidth - 1) hpos
  rw [memWords_eq hsize]
  omega

/-- The memory words of the arguments that `q` selects. -/
def wordsOf (p : Platform) (q : TestHarnessArgs → Prop) [DecidablePred q]
    (args : List TestHarnessArgs) : Nat :=
  ((args.filter fun a => q a).map (·.memWords p.toSetup)).sum

section WordsOf

variable {q : TestHarnessArgs → Prop} [DecidablePred q]

theorem wordsOf_append (args args' : List TestHarnessArgs) :
    wordsOf p q (args ++ args') = wordsOf p q args + wordsOf p q args' := by
  simp [wordsOf]

theorem wordsOf_snoc {done : List TestHarnessArgs} {x : TestHarnessArgs} (h : q x) :
    wordsOf p q (done ++ [x]) = wordsOf p q done + x.memWords p.toSetup := by
  simp [wordsOf, h]

theorem wordsOf_snoc_of_not {done : List TestHarnessArgs} {x : TestHarnessArgs} (h : ¬ q x) :
    wordsOf p q (done ++ [x]) = wordsOf p q done := by
  simp [wordsOf, h]

theorem wordsOf_snoc_le {args done rest : List TestHarnessArgs} {x : TestHarnessArgs}
    (hargs : args = done ++ x :: rest) (h : q x) :
    wordsOf p q done + x.memWords p.toSetup ≤ wordsOf p q args := by
  rw [hargs, ← List.singleton_append, ← List.append_assoc, wordsOf_append, wordsOf_snoc h]
  exact Nat.le_add_right _ _

/-- There are no more than 72 channels and no buffer has `2 ^ 57` bytes, so words do not
overflow. -/
theorem wordsOf_mul_lt {args : List TestHarnessArgs} (hdistinct : DistinctChannels args)
    (hchecked : ∀ a ∈ args, a.Checked p.toSetup)
    (hbuffer : ∀ a ∈ args, q a → a.size ≤ a.data.bytes.length) :
    wordsOf p q args * p.memWidth < 2 ^ 64 := by
  have hM := p.memWidth_lt
  have hN := p.channels_le
  set l := args.filter fun a => q a with hl
  have hmem : ∀ a ∈ l, a ∈ args ∧ q a := fun a ha => by simpa [hl] using ha
  have hcard : l.length ≤ 72 := by
    have hnodup : (l.map fun a => a.idx.toNat).Nodup := by
      refine List.Nodup.map_on ?_ ((List.Nodup.of_map _ hdistinct).filter _)
      intro a ha b hb hab
      exact List.inj_on_of_nodup_map hdistinct (hmem a ha).1 (hmem b hb).1 (UInt16.toNat_inj.mp hab)
    have hsub : (l.map fun a => a.idx.toNat) ⊆ List.range 72 := by
      intro c hc
      obtain ⟨a, ha, rfl⟩ := List.mem_map.mp hc
      rw [List.mem_range]
      rcases (hchecked a (hmem a ha).1).1 with hto | hfrom
      · rw [TestHarnessArgs.isTo_iff] at hto
        omega
      · rw [TestHarnessArgs.isFrom_iff] at hfrom
        omega
    simpa using (List.subperm_of_subset hnodup hsub).length_le
  have hterm : ∀ a ∈ l, a.memWords p.toSetup * p.memWidth ≤ 2 ^ 57 + 2 ^ 32 := by
    intro a ha
    have h1 := hbuffer a (hmem a ha).1 (hmem a ha).2
    have h2 := a.data.length_lt
    have h3 := memWords_mul_le (p := p) (a := a) (by omega)
    omega
  have hsum : wordsOf p q args * p.memWidth ≤ l.length * (2 ^ 57 + 2 ^ 32) := by
    rw [wordsOf, ← List.sum_map_mul_right]
    have := List.sum_le_card_nsmul (l.map fun a => a.memWords p.toSetup * p.memWidth)
      (2 ^ 57 + 2 ^ 32) (by
        intro x hx
        obtain ⟨a, ha, rfl⟩ := List.mem_map.mp hx
        exact hterm a ha)
    simpa using this
  calc wordsOf p q args * p.memWidth ≤ l.length * (2 ^ 57 + 2 ^ 32) := hsum
    _ ≤ 72 * (2 ^ 57 + 2 ^ 32) := Nat.mul_le_mul_right _ hcard
    _ < 2 ^ 64 := by norm_num

end WordsOf

/-! ### The first loop -/

theorem total_step {q : TestHarnessArgs → Prop} [DecidablePred q] {done : List TestHarnessArgs}
    {x : TestHarnessArgs} {total : Nat} (htotal : total = u64 (wordsOf p q done * p.memWidth)) :
    (if q x then u64 (total + u64 (x.memWords p.toSetup * p.memWidth)) else total)
      = u64 (wordsOf p q (done ++ [x]) * p.memWidth) := by
  split
  · rename_i hx
    rw [wordsOf_snoc hx, Nat.add_mul, htotal]
    exact (Nat.add_mod ..).symm
  · rename_i hx
    rw [wordsOf_snoc_of_not hx, htotal]

theorem funcTotals_eq {args : List TestHarnessArgs} {total_to total_from : Nat}
    (h : funcTotals p.toSetup args = .ok (total_to, total_from)) :
    (∀ a ∈ args, a.repetition.toNat = 1) ∧
      total_to = u64 (wordsOf p (·.IsTo p.toSetup) args * p.memWidth) ∧
      total_from = u64 (wordsOf p (·.IsFrom p.toSetup) args * p.memWidth) := by
  refine foldlM_invariant (I := fun done totals => (∀ a ∈ done, a.repetition.toNat = 1) ∧
      totals.1 = u64 (wordsOf p (·.IsTo p.toSetup) done * p.memWidth) ∧
      totals.2 = u64 (wordsOf p (·.IsFrom p.toSetup) done * p.memWidth))
    ⟨by simp, by simp [wordsOf, u64], by simp [wordsOf, u64]⟩ ?_ h
  rintro done x rest ⟨totTo, totFrom⟩ totals' - ⟨hrep, hto, hfrom⟩ hx
  by_cases hxrep : x.repetition.toNat ≠ 1
  · simp only [if_pos hxrep] at hx
    cases hx
  · simp only [if_neg hxrep, pure, Except.pure, bind, Except.bind, Except.ok.injEq] at hx hto hfrom
    subst hx
    refine ⟨?_, ?_, ?_⟩
    · intro a ha
      rcases List.mem_append.mp ha with hold | hnew
      · exact hrep a hold
      · obtain rfl : a = x := by simpa using hnew
        exact not_not.mp hxrep
    · rw [← total_step hto]
      by_cases hxto : x.IsTo p.toSetup
      · rw [if_pos hxto, if_pos hxto]
      · rw [if_neg hxto, if_neg hxto]
        split <;> rfl
    · rw [← total_step hfrom]
      by_cases hxto : x.IsTo p.toSetup
      · rw [if_pos hxto, if_neg hxto.not_isFrom]
      · rw [if_neg hxto]
        split <;> rfl

/-- The totals do not wrap while the words stay small. -/
theorem funcTotals_spec {args : List TestHarnessArgs} {total_to total_from : Nat}
    (h : funcTotals p.toSetup args = .ok (total_to, total_from)) :
    (∀ a ∈ args, a.repetition.toNat = 1) ∧
      (wordsOf p (·.IsTo p.toSetup) args * p.memWidth < 2 ^ 64 →
        total_to = wordsOf p (·.IsTo p.toSetup) args * p.memWidth) ∧
      (wordsOf p (·.IsFrom p.toSetup) args * p.memWidth < 2 ^ 64 →
        total_from = wordsOf p (·.IsFrom p.toSetup) args * p.memWidth) := by
  obtain ⟨hrep, hto, hfrom⟩ := funcTotals_eq h
  exact ⟨hrep, fun hlt => hto.trans (u64_of_lt hlt), fun hlt => hfrom.trans (u64_of_lt hlt)⟩

/-! ### Arguments to the AIE -/

/-- The words the PL reads for argument `a`, and the memory words from `off` on that hold its
data. -/
structure ToEntry (p : Platform) (cfg : List Nat) (mem : List UInt8) (mode : TestMode)
    (a : TestHarnessArgs) (off : Nat) : Prop where
  channel : loadChannel p cfg 0 a.toChn =
    { mode := mode
      delays := a.delay.toNat
      numFrames := u32 (a.size / p.word_size)
      numRep := u32 a.repetition.toNat
      offsets := u32 off }
  buffer_le : a.size ≤ a.data.bytes.length
  region_le : (off + a.memWords p.toSetup) * p.memWidth ≤ mem.length
  data_eq : slice (off * p.memWidth) a.size mem = a.data.bytes.take a.size

structure FuncToInv (p : Platform) (t : Transaction) (done : List TestHarnessArgs)
    (s : FuncLoop) : Prop where
  setup_eq : s.trans.setup = t.setup
  mode_eq : s.trans.mode = t.mode
  args_eq : s.trans.args_rec = t.args_rec
  from_eq : s.trans.from_aie_ptr = t.from_aie_ptr
  perf_eq : s.trans.perf_ptr = t.perf_ptr
  valid_eq : s.trans.result_valid = t.result_valid
  cfg_length : s.trans.cfg_ptr.length = t.cfg_ptr.length
  cfg_mode : s.trans.cfg_ptr.getD 0 0 = t.cfg_ptr.getD 0 0
  mem_length : s.trans.to_aie_ptr.length = t.to_aie_ptr.length
  next_eq : s.to_mem_word_offt = wordsOf p (·.IsTo p.toSetup) done
  listed : ∀ a ∈ done, a.IsTo p.toSetup → ∃ off,
    ToEntry p s.trans.cfg_ptr s.trans.to_aie_ptr (cfgMode t.cfg_ptr) a off
      ∧ off + a.memWords p.toSetup ≤ s.to_mem_word_offt
  unlisted : ∀ c < p.num_channels, (∀ a ∈ done, a.IsTo p.toSetup → a.toChn ≠ c) →
    loadChannel p s.trans.cfg_ptr 0 c = loadChannel p t.cfg_ptr 0 c

theorem ToEntry.of_writtenCfg {cfg cfg' : List Nat} {mem : List UInt8} {mode : TestMode}
    {a x : TestHarnessArgs} {off bias chn offset : Nat} (h : ToEntry p cfg mem mode a off)
    (ha : a.IsTo p.toSetup) (hcfg : WrittenCfg p bias chn x offset cfg cfg')
    (hother : a.toChn ≠ chn ∨ 4 ≤ bias) : ToEntry p cfg' mem mode a off :=
  { h with channel := by rw [hcfg.loadChannel_other ha.toChn_lt (by omega), h.channel] }

theorem ToEntry.size_lt {cfg : List Nat} {mem : List UInt8} {mode : TestMode} {a : TestHarnessArgs}
    {off : Nat} (h : ToEntry p cfg mem mode a off) : a.size < 2 ^ 57 :=
  lt_of_le_of_lt h.buffer_le a.data.length_lt

/-- The data of an argument ends inside its last memory word. -/
theorem ToEntry.data_le {cfg : List Nat} {mem : List UInt8} {mode : TestMode} {a : TestHarnessArgs}
    {off : Nat} (h : ToEntry p cfg mem mode a off) :
    off * p.memWidth + a.size ≤ (off + a.memWords p.toSetup) * p.memWidth := by
  have := h.size_lt
  rw [Nat.add_mul]
  exact Nat.add_le_add_left (size_le_memWords (by omega)) _

theorem funcToInv_step_to {t : Transaction} {args done rest : List TestHarnessArgs}
    {x : TestHarnessArgs} {s s' : FuncLoop} (hdistinct : DistinctChannels args)
    (hlen : wordsOf p (·.IsTo p.toSetup) args * p.memWidth ≤ t.to_aie_ptr.length)
    (hlen' : t.to_aie_ptr.length < 2 ^ 62) (hargs : args = done ++ x :: rest)
    (hx : x.IsTo p.toSetup) (hI : FuncToInv p t done s)
    (h : funcArgument p.toSetup s x = .ok s') : FuncToInv p t (done ++ [x]) s' := by
  have hMpos := p.memWidth_pos
  simp only [funcArgument, if_pos hx, bind_eq_ok, memcpy_eq_ok, pure, Except.pure,
    Except.ok.injEq, Nat.zero_add] at h
  obtain ⟨cfg', hcfg, mem', ⟨hsrc, hdst, rfl⟩, rfl⟩ := h
  have hcfg' := writtenCfg_of_writeCfg (by omega) hx.toChn_lt hcfg
  -- the words of `x` fit behind those already placed
  have hregion : (s.to_mem_word_offt + x.memWords p.toSetup) * p.memWidth
      ≤ t.to_aie_ptr.length := by
    rw [hI.next_eq]
    exact (Nat.mul_le_mul_right _ (wordsOf_snoc_le hargs hx)).trans hlen
  have hwords : s.to_mem_word_offt + x.memWords p.toSetup
      ≤ (s.to_mem_word_offt + x.memWords p.toSetup) * p.memWidth := Nat.le_mul_of_pos_right _ hMpos
  have hoff : u64 (s.to_mem_word_offt + x.memWords p.toSetup)
      = s.to_mem_word_offt + x.memWords p.toSetup := u64_of_lt (by omega)
  have hbase : s.to_mem_word_offt * p.memWidth
      ≤ (s.to_mem_word_offt + x.memWords p.toSetup) * p.memWidth :=
    Nat.mul_le_mul_right _ (Nat.le_add_right _ _)
  have hpos : u64 (s.to_mem_word_offt * p.memWidth) = s.to_mem_word_offt * p.memWidth :=
    u64_of_lt (by omega)
  rw [hpos, hI.mem_length] at hdst
  have hslice : (slice 0 x.size x.data.bytes).length = x.size := length_slice (by omega)
  have hfit : s.to_mem_word_offt * p.memWidth + (slice 0 x.size x.data.bytes).length
      ≤ s.trans.to_aie_ptr.length := by
    rw [hslice, hI.mem_length]
    exact hdst
  refine ⟨hI.setup_eq, hI.mode_eq, hI.args_eq, hI.from_eq, hI.perf_eq, hI.valid_eq, ?_, ?_, ?_, ?_,
    ?_, ?_⟩
  · exact hcfg'.length_eq.trans hI.cfg_length
  · exact hcfg'.mode_eq.trans hI.cfg_mode
  · show (overwrite _ _ _).length = _
    rw [hpos, length_overwrite hfit, hI.mem_length]
  · show u64 _ = _
    rw [hoff, hI.next_eq, wordsOf_snoc hx]
  · intro a ha hato
    show ∃ off, ToEntry p cfg' (overwrite _ _ _) _ a off ∧ _ ≤ u64 _
    rw [hpos, hoff]
    rcases List.mem_append.mp ha with hdone | hnewArg
    · -- an earlier argument: its range lies below the one just written
      obtain ⟨off, hentry, hbelow⟩ := hI.listed a hdone hato
      have hne : a.idx ≠ x.idx := (hargs ▸ hdistinct : DistinctChannels _).ne_of_mem hdone
      have hentry' := hentry.of_writtenCfg hato hcfg' (Or.inl (TestHarnessArgs.toChn_ne hne))
      refine ⟨off, { hentry' with region_le := ?_, data_eq := ?_ }, by omega⟩
      · rw [length_overwrite hfit]
        exact hentry.region_le
      · rw [slice_overwrite_of_disjoint hfit
          (Or.inl (hentry.data_le.trans (Nat.mul_le_mul_right _ hbelow)))]
        exact hentry.data_eq
    · obtain rfl : a = x := by simpa using hnewArg
      refine ⟨s.to_mem_word_offt, ⟨?_, hsrc, ?_, ?_⟩, by omega⟩
      · rw [hcfg'.loadChannel_self, hI.cfg_mode, cfgMode]
      · rw [length_overwrite hfit, hI.mem_length]
        exact hregion
      · have := slice_overwrite_self hfit
        rwa [hslice, slice_zero_off] at this
  · intro c hc hnone
    have hxc : c ≠ x.toChn := fun heq => hnone x (by simp) hx heq.symm
    show loadChannel p cfg' 0 c = _
    rw [hcfg'.loadChannel_other hc (Or.inl hxc)]
    exact hI.unlisted c hc fun a ha => hnone a (by simp [ha])

theorem funcToInv_step_from {t : Transaction} {done : List TestHarnessArgs} {x : TestHarnessArgs}
    {s s' : FuncLoop} (hx : ¬ x.IsTo p.toSetup) (hI : FuncToInv p t done s)
    (h : funcArgument p.toSetup s x = .ok s') : FuncToInv p t (done ++ [x]) s' := by
  have hmem : ∀ a ∈ done ++ [x], a.IsTo p.toSetup → a ∈ done := by
    intro a ha hato
    rcases List.mem_append.mp ha with hdone | hnew
    · exact hdone
    · obtain rfl : a = x := by simpa using hnew
      exact absurd hato hx
  have hnext : s.to_mem_word_offt = wordsOf p (·.IsTo p.toSetup) (done ++ [x]) := by
    rw [wordsOf_snoc_of_not hx, hI.next_eq]
  by_cases hfrom : x.IsFrom p.toSetup
  · simp only [funcArgument, if_neg hx, if_pos hfrom, bind_eq_ok, pure, Except.pure,
      Except.ok.injEq] at h
    obtain ⟨cfg', hcfg, offs', -, rfl⟩ := h
    have hcfg' := writtenCfg_of_writeCfg (by omega) hfrom.fromChn_lt hcfg
    refine { hI with
      cfg_length := hcfg'.length_eq.trans hI.cfg_length
      cfg_mode := hcfg'.mode_eq.trans hI.cfg_mode
      next_eq := hnext
      listed := ?_
      unlisted := ?_ }
    · intro a ha hato
      obtain ⟨off, hentry, hbelow⟩ := hI.listed a (hmem a ha hato) hato
      exact ⟨off, hentry.of_writtenCfg hato hcfg' (Or.inr (by omega)), hbelow⟩
    · intro c hc hnone
      show loadChannel p cfg' 0 c = _
      rw [hcfg'.loadChannel_other hc (by omega)]
      exact hI.unlisted c hc fun a ha => hnone a (by simp [ha])
  · simp only [funcArgument, if_neg hx, if_neg hfrom, pure, Except.pure, Except.ok.injEq] at h
    subst h
    exact { hI with
      next_eq := hnext
      listed := fun a ha hato => hI.listed a (hmem a ha hato) hato
      unlisted := fun c hc hnone => hI.unlisted c hc fun a ha => hnone a (by simp [ha]) }

/-! ### Arguments from the AIE -/

/-- The words the PL reads for argument `a`, and the offset `handleOutputs` will use. -/
structure FromEntry (p : Platform) (cfg offs : List Nat) (mode : TestMode) (a : TestHarnessArgs)
    (off : Nat) : Prop where
  channel : loadChannel p cfg 4 a.fromChn =
    { mode := mode
      delays := a.delay.toNat
      numFrames := u32 (a.size / p.word_size)
      numRep := u32 a.repetition.toNat
      offsets := off }
  offset_eq : offs[a.fromChn]? = some off

/-- The invariant of the second loop of `handleInputs`, from the AIE. Offsets are kept as the PL
reads them. -/
structure FuncFromInv (p : Platform) (t : Transaction) (done : List TestHarnessArgs)
    (s : FuncLoop) : Prop where
  next_eq : s.from_mem_word_offt = wordsOf p (·.IsFrom p.toSetup) done
  cfg_mode : s.trans.cfg_ptr.getD 0 0 = t.cfg_ptr.getD 0 0
  offs_length : s.trans.from_mem_word_offset.length = t.from_mem_word_offset.length
  listed : ∀ a ∈ done, a.IsFrom p.toSetup → ∃ off,
    FromEntry p s.trans.cfg_ptr s.trans.from_mem_word_offset (cfgMode t.cfg_ptr) a off
      ∧ off + a.memWords p.toSetup ≤ wordsOf p (·.IsFrom p.toSetup) done
  disjoint : ∀ a ∈ done, a.IsFrom p.toSetup → ∀ b ∈ done, b.IsFrom p.toSetup → a.idx ≠ b.idx →
    (loadChannel p s.trans.cfg_ptr 4 a.fromChn).offsets + a.memWords p.toSetup
        ≤ (loadChannel p s.trans.cfg_ptr 4 b.fromChn).offsets
      ∨ (loadChannel p s.trans.cfg_ptr 4 b.fromChn).offsets + b.memWords p.toSetup
        ≤ (loadChannel p s.trans.cfg_ptr 4 a.fromChn).offsets
  unlisted : ∀ c < p.num_channels, (∀ a ∈ done, a.IsFrom p.toSetup → a.fromChn ≠ c) →
    loadChannel p s.trans.cfg_ptr 4 c = loadChannel p t.cfg_ptr 4 c

theorem funcFromInv_step_from {t : Transaction} {args done rest : List TestHarnessArgs}
    {x : TestHarnessArgs} {s s' : FuncLoop} (hdistinct : DistinctChannels args)
    (hbound : wordsOf p (·.IsFrom p.toSetup) args ≤ 2 ^ 30) (hargs : args = done ++ x :: rest)
    (hx : x.IsFrom p.toSetup) (hI : FuncFromInv p t done s)
    (h : funcArgument p.toSetup s x = .ok s') : FuncFromInv p t (done ++ [x]) s' := by
  have hnotTo : ¬ x.IsTo p.toSetup := fun hto => hto.not_isFrom hx
  simp only [funcArgument, if_neg hnotTo, if_pos hx, bind_eq_ok, setAt_eq_ok, pure, Except.pure,
    Except.ok.injEq] at h
  obtain ⟨cfg', hcfg, offs', ⟨hoffs, rfl⟩, rfl⟩ := h
  have hcfg' := writtenCfg_of_writeCfg (by omega) hx.fromChn_lt hcfg
  have htotal : wordsOf p (·.IsFrom p.toSetup) done + x.memWords p.toSetup
      ≤ wordsOf p (·.IsFrom p.toSetup) args := wordsOf_snoc_le hargs hx
  have hdone : wordsOf p (·.IsFrom p.toSetup) (done ++ [x]) = wordsOf p (·.IsFrom p.toSetup) done
    + x.memWords p.toSetup := by
    exact wordsOf_snoc hx
  have hnext : s.from_mem_word_offt ≤ 2 ^ 30 := by
    rw [hI.next_eq]
    omega
  have hu32 : u32 s.from_mem_word_offt = s.from_mem_word_offt := u32_of_lt (by omega)
  have hself : loadChannel p cfg' 4 x.fromChn =
      { mode := cfgMode t.cfg_ptr
        delays := x.delay.toNat
        numFrames := u32 (x.size / p.word_size)
        numRep := u32 x.repetition.toNat
        offsets := s.from_mem_word_offt } := by
    rw [hcfg'.loadChannel_self, hI.cfg_mode, hu32, cfgMode]
  have hne : ∀ a ∈ done, a.idx ≠ x.idx := fun a ha =>
    (hargs ▸ hdistinct : DistinctChannels _).ne_of_mem ha
  have hother : ∀ a ∈ done, a.IsFrom p.toSetup →
      loadChannel p cfg' 4 a.fromChn = loadChannel p s.trans.cfg_ptr 4 a.fromChn :=
        fun a ha hafrom =>
    hcfg'.loadChannel_other hafrom.fromChn_lt
      (Or.inl (TestHarnessArgs.fromChn_ne hafrom hx (hne a ha)))
  -- an earlier range ends where the new one begins
  have hbelow : ∀ a ∈ done, a.IsFrom p.toSetup →
      (loadChannel p s.trans.cfg_ptr 4 a.fromChn).offsets + a.memWords p.toSetup
        ≤ s.from_mem_word_offt := by
    intro a ha hafrom
    obtain ⟨off, hentry, hle⟩ := hI.listed a ha hafrom
    rw [hentry.channel, hI.next_eq]
    exact hle
  refine ⟨?_, hcfg'.mode_eq.trans hI.cfg_mode, ?_, ?_, ?_, ?_⟩
  · show u64 _ = _
    rw [u64_of_lt (by omega), hI.next_eq, hdone]
  · show (List.set _ _ _).length = _
    rw [List.length_set, hI.offs_length]
  · intro a ha hafrom
    rcases List.mem_append.mp ha with hold | hnew
    · obtain ⟨off, hentry, hle⟩ := hI.listed a hold hafrom
      refine ⟨off, ⟨?_, ?_⟩, by omega⟩
      · rw [← hentry.channel]
        exact hother a hold hafrom
      · show (List.set _ _ _)[_]? = _
        rw [List.getElem?_set_ne
          (TestHarnessArgs.fromChn_ne hafrom hx (hne a hold)).symm]
        exact hentry.offset_eq
    · obtain rfl : a = x := by simpa using hnew
      refine ⟨s.from_mem_word_offt, ⟨hself, ?_⟩, by rw [hdone, hI.next_eq]⟩
      show (List.set _ _ _)[_]? = _
      rw [List.getElem?_set_self hoffs, hu32]
  · intro a ha hafrom b hb hbfrom hab
    show (loadChannel p cfg' 4 _).offsets + _ ≤ (loadChannel p cfg' 4 _).offsets
      ∨ (loadChannel p cfg' 4 _).offsets + _ ≤ (loadChannel p cfg' 4 _).offsets
    rcases List.mem_append.mp ha with hold | hnew
    · rcases List.mem_append.mp hb with hold' | hnew'
      · rw [hother a hold hafrom, hother b hold' hbfrom]
        exact hI.disjoint a hold hafrom b hold' hbfrom hab
      · obtain rfl : b = x := by simpa using hnew'
        rw [hother a hold hafrom, hself]
        exact Or.inl (hbelow a hold hafrom)
    · obtain rfl : a = x := by simpa using hnew
      rcases List.mem_append.mp hb with hold' | hnew'
      · rw [hother b hold' hbfrom, hself]
        exact Or.inr (hbelow b hold' hbfrom)
      · obtain rfl : b = a := by simpa using hnew'
        exact absurd rfl hab
  · intro c hc hnone
    have hxc : c ≠ x.fromChn := fun heq => hnone x (by simp) hx heq.symm
    show loadChannel p cfg' 4 c = _
    rw [hcfg'.loadChannel_other hc (Or.inl hxc)]
    exact hI.unlisted c hc fun a ha => hnone a (by simp [ha])

theorem funcFromInv_step_to {t : Transaction} {done : List TestHarnessArgs} {x : TestHarnessArgs}
    {s s' : FuncLoop} (hx : ¬ x.IsFrom p.toSetup) (hI : FuncFromInv p t done s)
    (h : funcArgument p.toSetup s x = .ok s') : FuncFromInv p t (done ++ [x]) s' := by
  have hmem : ∀ a ∈ done ++ [x], a.IsFrom p.toSetup → a ∈ done := by
    intro a ha hafrom
    rcases List.mem_append.mp ha with hdone | hnew
    · exact hdone
    · obtain rfl : a = x := by simpa using hnew
      exact absurd hafrom hx
  have hdone : wordsOf p (·.IsFrom p.toSetup) (done ++ [x])
    = wordsOf p (·.IsFrom p.toSetup) done := by
    exact wordsOf_snoc_of_not hx
  by_cases hto : x.IsTo p.toSetup
  · simp only [funcArgument, if_pos hto, bind_eq_ok, pure, Except.pure, Except.ok.injEq] at h
    obtain ⟨cfg', hcfg, mem', -, rfl⟩ := h
    have hcfg' := writtenCfg_of_writeCfg (by omega) hto.toChn_lt hcfg
    have hother : ∀ c < p.num_channels,
        loadChannel p cfg' 4 c = loadChannel p s.trans.cfg_ptr 4 c := fun c hc =>
      hcfg'.loadChannel_other hc (by omega)
    refine ⟨by rw [hdone]; exact hI.next_eq, hcfg'.mode_eq.trans hI.cfg_mode, hI.offs_length,
      ?_, ?_, ?_⟩
    · intro a ha hafrom
      obtain ⟨off, hentry, hle⟩ := hI.listed a (hmem a ha hafrom) hafrom
      refine ⟨off, ⟨?_, hentry.offset_eq⟩, by rw [hdone]; exact hle⟩
      rw [← hentry.channel]
      exact hother _ hafrom.fromChn_lt
    · intro a ha hafrom b hb hbfrom hab
      show (loadChannel p cfg' 4 _).offsets + _ ≤ (loadChannel p cfg' 4 _).offsets
        ∨ (loadChannel p cfg' 4 _).offsets + _ ≤ (loadChannel p cfg' 4 _).offsets
      rw [hother _ hafrom.fromChn_lt, hother _ hbfrom.fromChn_lt]
      exact hI.disjoint a (hmem a ha hafrom) hafrom b (hmem b hb hbfrom) hbfrom hab
    · intro c hc hnone
      show loadChannel p cfg' 4 c = _
      rw [hother c hc]
      exact hI.unlisted c hc fun a ha => hnone a (by simp [ha])
  · simp only [funcArgument, if_neg hto, if_neg hx, pure, Except.pure, Except.ok.injEq] at h
    subst h
    exact ⟨by rw [hdone]; exact hI.next_eq, hI.cfg_mode, hI.offs_length,
      fun a ha hafrom => hdone ▸ hI.listed a (hmem a ha hafrom) hafrom,
      fun a ha hafrom b hb hbfrom =>
        hI.disjoint a (hmem a ha hafrom) hafrom b (hmem b hb hbfrom) hbfrom,
      fun c hc hnone => hI.unlisted c hc fun a ha => hnone a (by simp [ha])⟩

/-! ### The layout -/

structure FuncToLayout (p : Platform) (t : Transaction) (args : List TestHarnessArgs) : Prop where
  setup_eq : t.setup = p.toSetup
  mode_eq : t.mode = .FUNC_MODE
  args_eq : t.args_rec = args
  cfg_mode : cfgMode t.cfg_ptr = .FUNC_MODE
  valid_eq : t.result_valid = true
  mem_le : t.to_aie_ptr.length ≤ 2 ^ 30
  from_mem_le : t.from_aie_ptr.length ≤ 2 ^ 30
  perf_length : t.perf_ptr.length = p.num_channels * 4
  checked : ∀ a ∈ args, a.Checked p.toSetup ∧ a.repetition.toNat = 1
  listed : ∀ a ∈ args, a.IsTo p.toSetup → ∃ off,
    ToEntry p t.cfg_ptr t.to_aie_ptr .FUNC_MODE a off
  unlisted : ∀ c < p.num_channels, (∀ a ∈ args, a.IsTo p.toSetup → a.toChn ≠ c) →
    loadChannel p t.cfg_ptr 0 c = ⟨.FUNC_MODE, 0, 0, 0, 0⟩

/-- From the AIE: ranges inside `from_aie_ptr` that do not meet. -/
structure FuncFromLayout (p : Platform) (t : Transaction) (args : List TestHarnessArgs) : Prop where
  offs_length : t.from_mem_word_offset.length = p.num_channels
  listed : ∀ a ∈ args, a.IsFrom p.toSetup → ∃ off,
    FromEntry p t.cfg_ptr t.from_mem_word_offset .FUNC_MODE a off
      ∧ (off + a.memWords p.toSetup) * p.memWidth ≤ t.from_aie_ptr.length
  disjoint : ∀ a ∈ args, a.IsFrom p.toSetup → ∀ b ∈ args, b.IsFrom p.toSetup → a.idx ≠ b.idx →
    (loadChannel p t.cfg_ptr 4 a.fromChn).offsets + a.memWords p.toSetup
        ≤ (loadChannel p t.cfg_ptr 4 b.fromChn).offsets
      ∨ (loadChannel p t.cfg_ptr 4 b.fromChn).offsets + b.memWords p.toSetup
        ≤ (loadChannel p t.cfg_ptr 4 a.fromChn).offsets
  unlisted : ∀ c < p.num_channels, (∀ a ∈ args, a.IsFrom p.toSetup → a.fromChn ≠ c) →
    loadChannel p t.cfg_ptr 4 c = ⟨.FUNC_MODE, 0, 0, 0, 0⟩

def Transaction.allocated (t : Transaction) (args : List TestHarnessArgs)
    (total_to total_from : Nat) : Transaction :=
  { t.prepared args with
    to_aie_ptr := List.replicate total_to 0
    from_aie_ptr := List.replicate total_from 0 }

/-- The pieces of an accepted functional mode `handleInputs`. -/
theorem handleFuncInputs_spec {t t' : Transaction} {args : List TestHarnessArgs}
    (hsetup : t.setup = p.toSetup) (hmode : t.mode = .FUNC_MODE)
    (h : t.handleInputs args = .ok t') :
    (∀ a ∈ args, a.Checked p.toSetup) ∧
      ∃ total_to total_from s, funcTotals p.toSetup args = .ok (total_to, total_from) ∧
        total_to < 2 ^ 62 ∧ total_from < 2 ^ 62 ∧
        args.foldlM (funcArgument p.toSetup) ⟨t.allocated args total_to total_from, 0, 0⟩ = .ok s ∧
        t' = { s.trans with status := .TRANSACTION_READY } := by
  obtain ⟨hchecked, t₁, ht₁, rfl⟩ := handleInputs_eq_ok h
  obtain ⟨_, mode, setup, _⟩ := t
  subst hsetup hmode
  simp only [handleModeInputs, prepared_mode, handleFuncInputs, prepared_setup, prepared_args_rec,
    bind_eq_ok, resize_eq_ok, pure, Except.pure, Except.ok.injEq] at ht₁
  obtain ⟨⟨total_to, total_from⟩, htotals, _, ⟨hto, rfl⟩, _, ⟨hfrom, rfl⟩, s, hloop, rfl⟩ := ht₁
  exact ⟨hchecked, total_to, total_from, s, htotals, hto, hfrom, hloop, rfl⟩

/-- Every copy of the loop stayed inside the user's buffer. -/
theorem buffer_le_of_loop {args : List TestHarnessArgs} {s₀ s : FuncLoop}
    (hloop : args.foldlM (funcArgument p.toSetup) s₀ = .ok s) :
    ∀ a ∈ args, a.IsTo p.toSetup → a.size ≤ a.data.bytes.length := by
  refine foldlM_invariant
    (I := fun done _ => ∀ a ∈ done, a.IsTo p.toSetup → a.size ≤ a.data.bytes.length)
    (by simp) ?_ hloop
  intro done x rest s s' _ hI hx a ha hato
  rcases List.mem_append.mp ha with hdone | hnew
  · exact hI a hdone hato
  · obtain rfl : a = x := by simpa using hnew
    simp only [funcArgument, if_pos hato, bind_eq_ok, memcpy_eq_ok, Nat.zero_add] at hx
    obtain ⟨_, _, _, ⟨hsrc, -⟩, -⟩ := hx
    exact hsrc

theorem funcToInv_of_loop {t : Transaction} {args : List TestHarnessArgs}
    {total_to total_from : Nat} {s : FuncLoop} (hdistinct : DistinctChannels args)
    (hchecked : ∀ a ∈ args, a.Checked p.toSetup)
    (htotals : funcTotals p.toSetup args = .ok (total_to, total_from)) (hto : total_to < 2 ^ 62)
    (hloop : args.foldlM (funcArgument p.toSetup) ⟨t.allocated args total_to total_from, 0, 0⟩
      = .ok s) :
    FuncToInv p (t.allocated args total_to total_from) args s := by
  have hlen : (t.allocated args total_to total_from).to_aie_ptr.length = total_to :=
    List.length_replicate
  have htotal : total_to = wordsOf p (·.IsTo p.toSetup) args * p.memWidth :=
    (funcTotals_spec htotals).2.1 (wordsOf_mul_lt hdistinct hchecked (buffer_le_of_loop hloop))
  refine foldlM_invariant (I := FuncToInv p (t.allocated args total_to total_from)) ?_ ?_ hloop
  · exact ⟨rfl, rfl, rfl, rfl, rfl, rfl, rfl, rfl, rfl, rfl, by simp, fun _ _ _ => rfl⟩
  · intro done x rest s s' hargs hI hx
    by_cases hxto : x.IsTo p.toSetup
    · exact funcToInv_step_to hdistinct (by rw [hlen, htotal]) (by rw [hlen]; exact hto) hargs hxto
        hI hx
    · exact funcToInv_step_from hxto hI hx

theorem funcToLayout_of_handleInputs {t t' : Transaction} {args : List TestHarnessArgs}
    (hsetup : t.setup = p.toSetup) (hmode : t.mode = .FUNC_MODE) (hdistinct : DistinctChannels args)
    (h : t.handleInputs args = .ok t') (hlimit : t'.getMemoryUsage ≤ 2 ^ 30) :
    FuncToLayout p t' args := by
  have hN := p.channels_le
  obtain ⟨hchecked, total_to, total_from, s, htotals, hto, hfrom, hloop, rfl⟩ :=
    handleFuncInputs_spec hsetup hmode h
  have hI := funcToInv_of_loop hdistinct hchecked htotals hto hloop
  have hmode₀ : cfgMode (t.allocated args total_to total_from).cfg_ptr = .FUNC_MODE :=
    (cfgMode_prepared args hsetup).trans hmode
  have hcfg : s.trans.cfg_ptr.length = p.num_channels * 8 + 1 :=
    hI.cfg_length.trans (prepared_cfg_length args hsetup)
  have hperf : s.trans.perf_ptr.length = p.num_channels * 4 :=
    (congrArg List.length hI.perf_eq).trans (prepared_perf_length args hsetup)
  have hbounds := buffers_le_of_memoryUsage (2 ^ 30)
    (t := { s.trans with status := .TRANSACTION_READY })
    (by simpa [hI.mem_length, Transaction.allocated] using hto)
    (by simpa [hI.from_eq, Transaction.allocated] using hfrom)
    (by show s.trans.cfg_ptr.length ≤ _; omega) (by show s.trans.perf_ptr.length ≤ _; omega) hlimit
  refine ⟨hI.setup_eq.trans hsetup, hI.mode_eq.trans hmode, hI.args_eq, ?_, hI.valid_eq, hbounds.1,
    hbounds.2, hperf, fun a ha => ⟨hchecked a ha, (funcTotals_spec htotals).1 a ha⟩, ?_, ?_⟩
  · rw [← hmode₀]
    exact congrArg (fun v => if v = 0 then TestMode.FUNC_MODE else .PERF_MODE) hI.cfg_mode
  · intro a ha hato
    obtain ⟨off, hentry, -⟩ := hI.listed a ha hato
    exact ⟨off, hmode₀ ▸ hentry⟩
  · intro c hc hnone
    show loadChannel p s.trans.cfg_ptr 0 c = _
    rw [hI.unlisted c hc hnone, ← hmode]
    exact prepared_loadChannel args hsetup 0 c

theorem funcFromLayout_of_handleInputs {t t' : Transaction} {args : List TestHarnessArgs}
    (hsetup : t.setup = p.toSetup) (hmode : t.mode = .FUNC_MODE) (hdistinct : DistinctChannels args)
    (hbuffer : ∀ a ∈ args, a.IsFrom p.toSetup → a.size ≤ a.data.bytes.length)
    (h : t.handleInputs args = .ok t') (hlimit : t'.getMemoryUsage ≤ 2 ^ 30) :
    FuncFromLayout p t' args := by
  have hmem := (funcToLayout_of_handleInputs hsetup hmode hdistinct h hlimit).from_mem_le
  obtain ⟨hchecked, total_to, total_from, s, htotals, hto, hfrom, hloop, rfl⟩ :=
    handleFuncInputs_spec hsetup hmode h
  have hlen : s.trans.from_aie_ptr.length = wordsOf p (·.IsFrom p.toSetup) args * p.memWidth := by
    rw [(funcToInv_of_loop hdistinct hchecked htotals hto hloop).from_eq]
    simp only [Transaction.allocated, List.length_replicate]
    exact (funcTotals_spec htotals).2.2 (wordsOf_mul_lt hdistinct hchecked hbuffer)
  have hbound : wordsOf p (·.IsFrom p.toSetup) args ≤ 2 ^ 30 :=
    (Nat.le_mul_of_pos_right _ p.memWidth_pos).trans (hlen ▸ hmem)
  have hmode₀ : cfgMode (t.allocated args total_to total_from).cfg_ptr = .FUNC_MODE :=
    (cfgMode_prepared args hsetup).trans hmode
  have hI : FuncFromInv p (t.allocated args total_to total_from) args s := by
    refine foldlM_invariant (I := FuncFromInv p (t.allocated args total_to total_from)) ?_ ?_ hloop
    · exact ⟨rfl, rfl, rfl, by simp, by simp, fun _ _ _ => rfl⟩
    · intro done x rest s s' hargs hI hx
      by_cases hxfrom : x.IsFrom p.toSetup
      · exact funcFromInv_step_from hdistinct hbound hargs hxfrom hI hx
      · exact funcFromInv_step_to hxfrom hI hx
  refine ⟨hI.offs_length.trans (prepared_offset_length args hsetup), ?_, hI.disjoint, ?_⟩
  · intro a ha hafrom
    obtain ⟨off, hentry, hle⟩ := hI.listed a ha hafrom
    exact ⟨off, hmode₀ ▸ hentry, hlen ▸ Nat.mul_le_mul_right _ hle⟩
  · intro c hc hnone
    show loadChannel p s.trans.cfg_ptr 4 c = _
    rw [hI.unlisted c hc hnone, ← hmode]
    exact prepared_loadChannel args hsetup 4 c

end AieTestHarness
