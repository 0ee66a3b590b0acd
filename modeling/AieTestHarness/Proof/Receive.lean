import AieTestHarness.Kernel.Receive
import AieTestHarness.Proof.Transmit
import AieTestHarness.Proof.Words

/-!
# Functional mode from the AIE: the flow of words

What `get` has read is the first part of what the AIE delivers, what it has put into the FIFO is
that part packed into words, and the words `store_memories` has taken out stand in memory where the
channel's offset says. The FIFO never holds more than what `store_memories` still expects, since
both count the words of the same number of frames.
-/

namespace AieTestHarness

open Slices

section Flow

variable {p : Kernel} {ch : Channel} {bs : List Beat}

/-- The `k`-th memory word of a channel that delivers `bs`: the last one may be filled in part. -/
def rxWord (p : Kernel) (ch : Channel) (bs : List Beat) (k : Nat) : MemWord :=
  packed p (slice (k * p.memRatio) (min p.memRatio (ch.numFrames - k * p.memRatio)) bs)

def GetPc.reads (p : Kernel) (ch : Channel) : GetPc → Nat
  | .wait _ => 0
  | .head i => i * p.memRatio
  | .word i _ j => i * p.memRatio + j
  | .put i _ => (i + 1) * p.memRatio
  | .rest _ j => ch.numFrames / p.memRatio * p.memRatio + j
  | .putRest _ => ch.numFrames
  | .done => ch.numFrames

def GetPc.puts (p : Kernel) (ch : Channel) : GetPc → Nat
  | .wait _ => 0
  | .head i => i
  | .word i _ _ => i
  | .put i _ => i
  | .rest _ _ => ch.numFrames / p.memRatio
  | .putRest _ => ch.numFrames / p.memRatio
  | .done => ch.words p

def GetPc.Ok (p : Kernel) (ch : Channel) (bs : List Beat) : GetPc → Prop
  | .wait _ => True
  | .head i => i ≤ ch.numFrames / p.memRatio
  | .word i data j => i < ch.numFrames / p.memRatio ∧ j ≤ p.memRatio
      ∧ data = packed p (slice (i * p.memRatio) j bs)
  | .put i data => i < ch.numFrames / p.memRatio ∧ data = rxWord p ch bs i
  | .rest data j => ch.numFrames % p.memRatio ≠ 0 ∧ j ≤ ch.numFrames % p.memRatio
      ∧ data = packed p (slice (ch.numFrames / p.memRatio * p.memRatio) j bs)
  | .putRest data => ch.numFrames % p.memRatio ≠ 0
      ∧ data = rxWord p ch bs (ch.numFrames / p.memRatio)
  | .done => True

def GetPc.InRange (p : Kernel) (ch : Channel) : GetPc → Prop
  | .wait _ => True
  | .head i => i ≤ ch.numFrames / p.memRatio
  | .word i _ j => i < ch.numFrames / p.memRatio ∧ j ≤ p.memRatio
  | .put i _ => i < ch.numFrames / p.memRatio
  | .rest _ j => j ≤ ch.numFrames % p.memRatio
  | .putRest _ => True
  | .done => True

theorem GetPc.Ok.inRange {pc : GetPc} (h : pc.Ok p ch bs) : pc.InRange p ch := by
  cases pc with
  | wait count => trivial
  | head i => exact h
  | word i data j => exact ⟨h.1, h.2.1⟩
  | put i data => exact h.1
  | rest data j => exact h.2.1
  | putRest data => trivial
  | done => trivial

theorem full_words_mul_le {i : Nat} (hi : i < ch.numFrames / p.memRatio) :
    (i + 1) * p.memRatio ≤ ch.numFrames :=
  (Nat.mul_le_mul_right _ hi).trans (Nat.div_mul_le_self _ _)

theorem reads_le_numFrames {pc : GetPc} (hin : pc.InRange p ch) :
    pc.reads p ch ≤ ch.numFrames := by
  have hdiv := Nat.div_mul_le_self ch.numFrames p.memRatio
  have hrest := Nat.div_add_mod' ch.numFrames p.memRatio
  cases pc with
  | wait count => exact Nat.zero_le _
  | head i => exact (Nat.mul_le_mul_right _ hin).trans hdiv
  | word i data j =>
      have hword := full_words_mul_le hin.1
      have hj := hin.2
      rw [Nat.succ_mul] at hword
      change i * p.memRatio + j ≤ _
      omega
  | put i data => exact full_words_mul_le hin
  | rest data j =>
      change j ≤ _ at hin
      change ch.numFrames / p.memRatio * p.memRatio + j ≤ _
      omega
  | putRest data => exact Nat.le_refl _
  | done => exact Nat.le_refl _

theorem reads_of_getStep {room : Bool} {pc pc' : GetPc} {strm strm' : List Beat}
    {out : List MemWord}
    (hin : pc.InRange p ch) (h : getStep p ch room strm pc = some (pc', strm', out)) :
    pc'.InRange p ch
      ∧ ((strm' = strm ∧ pc'.reads p ch = pc.reads p ch
          ∧ ∀ strm₁, getStep p ch room strm₁ pc = some (pc', strm₁, out))
        ∨ ∃ tmp, strm = tmp :: strm' ∧ pc'.reads p ch = pc.reads p ch + 1
          ∧ pc.reads p ch < ch.numFrames
          ∧ ∀ strm₁, getStep p ch room (tmp :: strm₁) pc = some (pc', strm₁, out)) := by
  have hR := p.memRatio_pos
  have hrest := Nat.div_add_mod' ch.numFrames p.memRatio
  cases pc with
  | wait count =>
      cases count with
      | zero =>
          cases h
          exact ⟨Nat.zero_le _, Or.inl ⟨rfl, Nat.zero_mul _, fun _ => rfl⟩⟩
      | succ count =>
          cases h
          exact ⟨trivial, Or.inl ⟨rfl, rfl, fun _ => rfl⟩⟩
  | head i =>
      change i ≤ _ at hin
      simp only [getStep] at h ⊢
      split at h
      · next hi =>
        cases h
        exact ⟨⟨hi, Nat.zero_le _⟩, Or.inl ⟨rfl, rfl, fun _ => if_pos hi⟩⟩
      · next hi =>
        obtain rfl : i = ch.numFrames / p.memRatio := by omega
        split at h
        · next hres =>
          cases h
          exact ⟨Nat.zero_le _, Or.inl ⟨rfl, rfl, fun _ => by rw [if_neg hi, if_pos hres]⟩⟩
        · next hres =>
          cases h
          refine ⟨trivial, Or.inl ⟨rfl, ?_, fun _ => by rw [if_neg hi, if_neg hres]⟩⟩
          change ch.numFrames = ch.numFrames / p.memRatio * p.memRatio
          omega
  | word i data j =>
      obtain ⟨hi, hj⟩ := hin
      have hword := full_words_mul_le hi
      rw [Nat.succ_mul] at hword
      simp only [getStep] at h ⊢
      split at h
      · next hlt =>
        cases strm with
        | nil => cases h
        | cons tmp strm =>
            cases h
            refine ⟨⟨hi, hlt⟩, Or.inr ⟨tmp, rfl, rfl, ?_, fun _ => by rw [if_pos hlt]⟩⟩
            change i * p.memRatio + j < _
            omega
      · next hlt =>
        cases h
        refine ⟨hi, Or.inl ⟨rfl, ?_, fun _ => by rw [if_neg hlt]⟩⟩
        change (i + 1) * p.memRatio = i * p.memRatio + j
        rw [Nat.succ_mul]
        omega
  | put i data =>
      simp only [getStep] at h ⊢
      split at h
      · next hroom =>
        cases h
        exact ⟨hin, Or.inl ⟨rfl, rfl, fun _ => by rw [if_pos hroom]⟩⟩
      · cases h
  | rest data j =>
      change j ≤ _ at hin
      have hmod := Nat.mod_lt ch.numFrames hR
      have hle : p.memRatio ≤ 16 := p.ratio_le
      simp only [getStep] at h ⊢
      split at h
      · next hlt =>
        rw [Nat.mod_eq_of_lt (show j + 1 < 2 ^ 5 by omega)] at h ⊢
        cases strm with
        | nil => cases h
        | cons tmp strm =>
            cases h
            refine ⟨hlt, Or.inr ⟨tmp, rfl, rfl, ?_, fun _ => by rw [if_pos hlt]⟩⟩
            change ch.numFrames / p.memRatio * p.memRatio + j < _
            omega
      · next hlt =>
        cases h
        refine ⟨trivial, Or.inl ⟨rfl, ?_, fun _ => by rw [if_neg hlt]⟩⟩
        change ch.numFrames = ch.numFrames / p.memRatio * p.memRatio + j
        omega
  | putRest data =>
      simp only [getStep] at h ⊢
      split at h
      · next hroom =>
        cases h
        exact ⟨trivial, Or.inl ⟨rfl, rfl, fun _ => by rw [if_pos hroom]⟩⟩
      · cases h
  | done => cases h

/-- The invariant of one channel, `moved` words of which `store_memories` has moved. -/
structure RxFlow (p : Kernel) (ch : Channel) (bs : List Beat) (pc : GetPc) (strm todo : List Beat)
    (fifo : List MemWord) (moved : Nat) : Prop where
  ok : pc.Ok p ch bs
  reads_le : pc.reads p ch ≤ bs.length
  strm_eq : strm ++ todo = bs.drop (pc.reads p ch)
  moved_le : moved ≤ pc.puts p ch
  fifo_eq : fifo = (List.range' moved (pc.puts p ch - moved)).map (rxWord p ch bs)

variable {pc pc' : GetPc} {strm strm' todo : List Beat} {fifo out : List MemWord} {moved : Nat}

theorem rxWord_of_full {i : Nat} (hi : i < ch.numFrames / p.memRatio) :
    rxWord p ch bs i = packed p (slice (i * p.memRatio) p.memRatio bs) := by
  have := full_words_mul_le hi
  rw [Nat.succ_mul] at this
  rw [rxWord, Nat.min_eq_left (by omega)]

theorem rxWord_of_rest :
    rxWord p ch bs (ch.numFrames / p.memRatio)
      = packed p
        (slice (ch.numFrames / p.memRatio * p.memRatio) (ch.numFrames % p.memRatio) bs) := by
  have hdiv := Nat.div_add_mod ch.numFrames p.memRatio
  have hlt := Nat.mod_lt ch.numFrames p.memRatio_pos
  rw [Nat.mul_comm] at hdiv
  rw [rxWord, Nat.min_eq_right (by omega)]
  congr 2
  omega

theorem puts_le_words (hok : pc.Ok p ch bs) : pc.puts p ch ≤ ch.words p := by
  have hdiv : ch.numFrames / p.memRatio ≤ ch.words p := by
    by_cases hrem : ch.numFrames % p.memRatio = 0
    · rw [words_of_rem_eq_zero hrem]
    · rw [words_of_rem_ne_zero hrem]
      exact Nat.le_succ _
  cases pc with
  | wait count => exact Nat.zero_le _
  | head i => exact Nat.le_trans hok hdiv
  | word i data j => exact Nat.le_trans (Nat.le_of_lt hok.1) hdiv
  | put i data => exact Nat.le_trans (Nat.le_of_lt hok.1) hdiv
  | rest data j => exact hdiv
  | putRest data => exact hdiv
  | done => exact Nat.le_refl _

/-- What the FIFO holds and `store_memories` has taken is no more than the channel's words. -/
theorem RxFlow.occupancy_le (h : RxFlow p ch bs pc strm todo fifo moved) :
    moved + fifo.length ≤ ch.words p := by
  have := puts_le_words h.ok
  have := h.moved_le
  rw [h.fifo_eq, List.length_map, List.length_range']
  omega

theorem RxFlow.fifo_length (h : RxFlow p ch bs pc strm todo fifo moved) :
    moved + fifo.length = pc.puts p ch := by
  have := h.moved_le
  rw [h.fifo_eq, List.length_map, List.length_range']
  omega

theorem RxFlow.pop_strm {tmp : Beat} (h : RxFlow p ch bs pc (tmp :: strm) todo fifo moved) :
    ∃ hlt : pc.reads p ch < bs.length, tmp = bs[pc.reads p ch] ∧
      strm ++ todo = bs.drop (pc.reads p ch + 1) := by
  have heq := h.strm_eq
  have hlt : pc.reads p ch < bs.length := by
    by_contra hge
    rw [List.drop_of_length_le (by omega)] at heq
    simp at heq
  rw [List.drop_eq_getElem_cons hlt, List.cons_append, List.cons.injEq] at heq
  exact ⟨hlt, heq.1, heq.2⟩

theorem RxFlow.pop_fifo {tmp : MemWord} (h : RxFlow p ch bs pc strm todo (tmp :: fifo) moved) :
    tmp = rxWord p ch bs moved ∧ RxFlow p ch bs pc strm todo fifo (moved + 1) := by
  have hlen := h.fifo_length
  have heq := h.fifo_eq
  rw [List.length_cons] at hlen
  rw [show pc.puts p ch - moved = pc.puts p ch - (moved + 1) + 1 by omega, List.range'_succ,
    List.map_cons, List.cons.injEq] at heq
  exact ⟨heq.1, h.ok, h.reads_le, h.strm_eq, by omega, heq.2⟩

theorem RxFlow.deliver {b : Beat} (h : RxFlow p ch bs pc strm (b :: todo) fifo moved) :
    RxFlow p ch bs pc (strm ++ [b]) todo fifo moved :=
  { h with strm_eq := by rw [List.append_assoc, List.singleton_append, h.strm_eq] }

theorem RxFlow.goto (h : RxFlow p ch bs pc strm todo fifo moved) (hok : pc'.Ok p ch bs)
    (hreads : pc'.reads p ch = pc.reads p ch) (hputs : pc'.puts p ch = pc.puts p ch) :
    RxFlow p ch bs pc' strm todo (fifo ++ []) moved :=
  ⟨hok, by rw [hreads]; exact h.reads_le, by rw [hreads]; exact h.strm_eq,
    by rw [hputs]; exact h.moved_le, by rw [List.append_nil, hputs]; exact h.fifo_eq⟩

theorem RxFlow.read {tmp : Beat} (h : RxFlow p ch bs pc (tmp :: strm) todo fifo moved)
    (hok : pc'.Ok p ch bs) (hreads : pc'.reads p ch = pc.reads p ch + 1)
    (hputs : pc'.puts p ch = pc.puts p ch) : RxFlow p ch bs pc' strm todo (fifo ++ []) moved := by
  obtain ⟨hlt, -, hstrm⟩ := h.pop_strm
  exact ⟨hok, by omega, by rw [hreads]; exact hstrm, by rw [hputs]; exact h.moved_le,
    by rw [List.append_nil, hputs]; exact h.fifo_eq⟩

theorem RxFlow.put {data : MemWord} (h : RxFlow p ch bs pc strm todo fifo moved)
    (hok : pc'.Ok p ch bs) (hreads : pc'.reads p ch = pc.reads p ch)
    (hputs : pc'.puts p ch = pc.puts p ch + 1) (hdata : data = rxWord p ch bs (pc.puts p ch)) :
    RxFlow p ch bs pc' strm todo (fifo ++ [data]) moved := by
  have hle := h.moved_le
  refine ⟨hok, by rw [hreads]; exact h.reads_le, by rw [hreads]; exact h.strm_eq, by omega, ?_⟩
  rw [hputs, show pc.puts p ch + 1 - moved = pc.puts p ch - moved + 1 by omega, List.range'_concat,
    List.map_append, List.map_singleton, ← h.fifo_eq, hdata, Nat.one_mul]
  congr 3
  omega

/-- One more stream word in the memory word `get` packs. -/
theorem setRange_slice {off j : Nat} {tmp : Beat} (hsized : Sized p bs) (hlt : off + j < bs.length)
    (htmp : tmp = bs[off + j]) :
    p.setRange (packed p (slice off j bs)) j tmp = packed p (slice off (j + 1) bs) := by
  have hlen : (slice off j bs).length = j := length_slice (by omega)
  rw [slice_succ hlt, ← htmp, ← setRange_packed (hsized.slice off j), hlen]

theorem rxFlow_getStep (hsized : Sized p bs) {room : Bool}
    (hI : RxFlow p ch bs pc strm todo fifo moved)
    (h : getStep p ch room strm pc = some (pc', strm', out)) :
    RxFlow p ch bs pc' strm' todo (fifo ++ out) moved := by
  have hR : p.memRatio ≤ 16 := p.ratio_le
  have hremlt := Nat.mod_lt ch.numFrames p.memRatio_pos
  have hdiv := Nat.div_add_mod ch.numFrames p.memRatio
  rw [Nat.mul_comm] at hdiv
  cases pc with
  | wait count =>
      cases count with
      | zero =>
          simp only [getStep, Option.some.injEq, Prod.mk.injEq] at h
          obtain ⟨rfl, rfl, rfl⟩ := h
          exact hI.goto (Nat.zero_le _) (Nat.zero_mul _) rfl
      | succ count =>
          simp only [getStep, Option.some.injEq, Prod.mk.injEq] at h
          obtain ⟨rfl, rfl, rfl⟩ := h
          exact hI.goto trivial rfl rfl
  | head i =>
      have hi : i ≤ ch.numFrames / p.memRatio := hI.ok
      simp only [getStep] at h
      by_cases hlt : i < ch.numFrames / p.memRatio
      · rw [if_pos hlt, Option.some.injEq, Prod.mk.injEq, Prod.mk.injEq] at h
        obtain ⟨rfl, rfl, rfl⟩ := h
        exact hI.goto ⟨hlt, Nat.zero_le _, by rw [slice_zero_len, packed_nil]⟩ rfl rfl
      · obtain rfl : i = ch.numFrames / p.memRatio := by omega
        rw [if_neg hlt] at h
        by_cases hrem : ch.numFrames % p.memRatio ≠ 0
        · rw [if_pos hrem, Option.some.injEq, Prod.mk.injEq, Prod.mk.injEq] at h
          obtain ⟨rfl, rfl, rfl⟩ := h
          exact hI.goto ⟨hrem, Nat.zero_le _, by rw [slice_zero_len, packed_nil]⟩ rfl rfl
        · rw [if_neg hrem, Option.some.injEq, Prod.mk.injEq, Prod.mk.injEq] at h
          obtain ⟨rfl, rfl, rfl⟩ := h
          have hrem0 : ch.numFrames % p.memRatio = 0 := not_not.mp hrem
          exact hI.goto trivial (show ch.numFrames = _ * _ by omega) (words_of_rem_eq_zero hrem0)
  | word i data j =>
      obtain ⟨hi, hj, hdata⟩ := hI.ok
      simp only [getStep] at h
      by_cases hlt : j < p.memRatio
      · rw [if_pos hlt] at h
        cases strm with
        | nil => cases h
        | cons tmp strm =>
            simp only [Option.some.injEq, Prod.mk.injEq] at h
            obtain ⟨rfl, rfl, rfl⟩ := h
            obtain ⟨hlen, htmp, -⟩ := hI.pop_strm
            refine hI.read ⟨hi, hlt, ?_⟩ rfl rfl
            rw [hdata]
            exact setRange_slice hsized hlen htmp
      · obtain rfl : j = p.memRatio := by omega
        rw [if_neg hlt, Option.some.injEq, Prod.mk.injEq, Prod.mk.injEq] at h
        obtain ⟨rfl, rfl, rfl⟩ := h
        exact hI.goto ⟨hi, by rw [rxWord_of_full hi, hdata]⟩ (Nat.succ_mul _ _) rfl
  | put i data =>
      obtain ⟨hi, hdata⟩ := hI.ok
      cases room with
      | false => simp [getStep] at h
      | true =>
          simp only [getStep, if_true, Option.some.injEq, Prod.mk.injEq] at h
          obtain ⟨rfl, rfl, rfl⟩ := h
          exact hI.put hi rfl rfl hdata
  | rest data j =>
      obtain ⟨hrem, hj, hdata⟩ := hI.ok
      simp only [getStep] at h
      by_cases hlt : j < ch.numFrames % p.memRatio
      · rw [if_pos hlt, Nat.mod_eq_of_lt (show j + 1 < 2 ^ 5 by omega)] at h
        cases strm with
        | nil => cases h
        | cons tmp strm =>
            simp only [Option.some.injEq, Prod.mk.injEq] at h
            obtain ⟨rfl, rfl, rfl⟩ := h
            obtain ⟨hlen, htmp, -⟩ := hI.pop_strm
            refine hI.read ⟨hrem, hlt, ?_⟩ rfl rfl
            rw [hdata]
            exact setRange_slice hsized hlen htmp
      · obtain rfl : j = ch.numFrames % p.memRatio := by omega
        rw [if_neg hlt, Option.some.injEq, Prod.mk.injEq, Prod.mk.injEq] at h
        obtain ⟨rfl, rfl, rfl⟩ := h
        exact hI.goto ⟨hrem, by rw [rxWord_of_rest, hdata]⟩
          (show ch.numFrames = _ * _ + _ by omega) rfl
  | putRest data =>
      obtain ⟨hrem, hdata⟩ := hI.ok
      cases room with
      | false => simp [getStep] at h
      | true =>
          simp only [getStep, if_true, Option.some.injEq, Prod.mk.injEq] at h
          obtain ⟨rfl, rfl, rfl⟩ := h
          exact hI.put trivial rfl (words_of_rem_ne_zero hrem) hdata
  | done => simp [getStep] at h

theorem getStep_out {room : Bool} (h : getStep p ch room strm pc = some (pc', strm', out)) :
    out = [] ∨ pc.AtPut ∧ ∃ data, out = [data] := by
  unfold getStep at h
  split at h <;> (try split at h) <;> (try split at h) <;>
    simp_all [GetPc.AtPut]
  all_goals exact Or.inr ⟨_, h.2.2.symm⟩

theorem getStep_atPut {room : Bool} (hput : pc.AtPut)
    (h : getStep p ch room strm pc = some (pc', strm', out)) : ∃ data, out = [data] := by
  cases pc with
  | put i data =>
      simp only [getStep] at h
      split at h
      · simp only [Option.some.injEq, Prod.mk.injEq] at h
        exact ⟨data, h.2.2.symm⟩
      · cases h
  | putRest data =>
      simp only [getStep] at h
      split at h
      · simp only [Option.some.injEq, Prod.mk.injEq] at h
        exact ⟨data, h.2.2.symm⟩
      · cases h
  | wait count => exact hput.elim
  | head i => exact hput.elim
  | word i data j => exact hput.elim
  | rest data j => exact hput.elim
  | done => exact hput.elim

end Flow

/-! ### All channels -/

namespace Receive

open MemLoop

variable {T : Receive} {s s' : RxState}

def word (T : Receive) (c k : Nat) : MemWord := rxWord T.p (T.chs.from_aie_ch c) (T.beats c) k

/-- What the run is given fits: stream words have the stream's width and there are enough of them,
and the regions of the channels lie in memory, apart from each other. -/
structure Fits (T : Receive) : Prop where
  mode_eq : (T.chs.from_aie_ch 0).mode = .FUNC_MODE
  burst_pos : 0 < T.burst_len
  burst_le : T.burst_len ≤ 128
  frames_lt : ∀ c < T.p.num_channels, (T.chs.from_aie_ch c).numFrames < 2 ^ 31
  offsets_lt : ∀ c < T.p.num_channels, (T.chs.from_aie_ch c).offsets < 2 ^ 31
  sized : ∀ c < T.p.num_channels, Sized T.p (T.beats c)
  enough : ∀ c < T.p.num_channels, (T.chs.from_aie_ch c).numFrames ≤ (T.beats c).length
  region_le : ∀ c < T.p.num_channels, ∀ k < (T.chs.from_aie_ch c).words T.p,
    ((T.chs.from_aie_ch c).offsets + k + 1) * T.p.memWidth ≤ T.mem.length
  disjoint : ∀ c < T.p.num_channels, ∀ c' < T.p.num_channels, c ≠ c' →
    ∀ k < (T.chs.from_aie_ch c).words T.p, ∀ k' < (T.chs.from_aie_ch c').words T.p,
      (T.chs.from_aie_ch c).offsets + k ≠ (T.chs.from_aie_ch c').offsets + k'

theorem Fits.numWords_eq (hs : T.Fits) {c : Nat} (hc : c < T.p.num_channels) :
    T.storeMemories.numWords c = (T.chs.from_aie_ch c).words T.p :=
  MemLoop.numWords_eq (hs.frames_lt c hc)

theorem Fits.bounded (hs : T.Fits) : T.storeMemories.Bounded := by
  intro c hc
  have hf := hs.frames_lt c hc
  have ho := hs.offsets_lt c hc
  have hw := Transmit.words_le T.p (T.chs.from_aie_ch c)
  rw [hs.numWords_eq hc]
  show (T.chs.from_aie_ch c).offsets + _ < _
  omega

structure Inv (T : Receive) (s : RxState) : Prop where
  store : T.storeMemories.Inv s.store
  flow : ∀ c < T.p.num_channels, RxFlow T.p (T.chs.from_aie_ch c) (T.beats c) (s.get c) (s.axi c)
    (s.todo c) (s.io.from_aie_strm c) (moved s.store c)
  ready : ∀ c < T.p.num_channels, owed T.burst_len s.store.pc c ≤ (s.io.from_aie_strm c).length
  /-- Between the two tests of a pass the FIFO is not filled up to 256 words left or more. -/
  gap : ∀ ch_id numData, s.store.pc = .resTest ch_id numData → 2 ^ 8 ≤ numData →
    (s.io.from_aie_strm ch_id).length ≠ numData
  empty_eq : s.io.empty = 0
  mem_length : s.io.mem.length = T.mem.length
  mem_eq : ∀ c < T.p.num_channels, ∀ k < moved s.store c,
    T.p.readWord s.io.mem ((T.chs.from_aie_ch c).offsets + k) = T.word c k
  writes_mem : ∀ w ∈ s.io.writes, w.1 < T.p.num_channels
    ∧ (T.chs.from_aie_ch w.1).offsets ≤ w.2
    ∧ w.2 < (T.chs.from_aie_ch w.1).offsets + (T.chs.from_aie_ch w.1).words T.p

theorem inv_init (T : Receive) : T.Inv T.init := by
  refine ⟨MemLoop.inv_start _, ?_, ?_, ?_, rfl, rfl, ?_, by simp [init]⟩
  · intro c _
    exact ⟨trivial, Nat.zero_le _, rfl, Nat.le_refl _, rfl⟩
  · intro c _
    exact Nat.zero_le _
  · intro ch_id numData hpc
    cases hpc
  · intro c _ k hk
    exact absurd hk (Nat.not_lt_zero k)

theorem Inv.not_wraps (hI : T.Inv s) : ¬ T.storeMemories.Wraps s.store s.io := by
  rintro ⟨ch_id, numData, hpc, hready, hge⟩
  exact hI.gap ch_id numData hpc hge (of_decide_eq_true hready)

/-- A FIFO that is not ready for a burst holds fewer than 256 words. -/
theorem Fits.restSmall (hs : T.Fits) (x : RxIO) : T.storeMemories.RestSmall x := by
  intro c n hres hburst
  have hB := hs.burst_le
  have hlen : (x.from_aie_strm c).length = n := of_decide_eq_true hres
  have hnot : ¬ T.burst_len ≤ n := fun h => hburst ⟨h, decide_eq_true (by rw [hlen]; exact h)⟩
  omega

/-- The pass goes on to its second test only past a FIFO that is not ready for a burst. -/
theorem gap_of_step (hs : T.Fits) {store : MemProc} {io : RxIO}
    (h : T.storeMemories.step s.store s.io = some (store, io)) {ch_id numData : Nat}
    (hpc : store.pc = .resTest ch_id numData) (hge : 2 ^ 8 ≤ numData) :
    (io.from_aie_strm ch_id).length ≠ numData := by
  obtain ⟨rfl, hburst⟩ := MemLoop.step_to_resTest h hpc
  intro hlen
  have := hs.restSmall s.io ch_id numData (decide_eq_true hlen) hburst
  omega

theorem length_word (hs : T.Fits) {c k : Nat} (hc : c < T.p.num_channels) :
    (T.word c k).length = T.p.memWidth := by
  refine length_packed ((hs.sized c hc).slice _ _) ?_
  exact (List.length_take_le _ _).trans (Nat.min_le_left _ _)

theorem inv_store (hs : T.Fits) (hI : T.Inv s) (h : T.lts.step .store s = some s') : T.Inv s' := by
  simp only [lts, Option.map_eq_some_iff] at h
  obtain ⟨⟨store, io⟩, hstep, rfl⟩ := h
  obtain ⟨hstore, heffect⟩ := MemLoop.step_spec hstep hI.not_wraps hI.store
  change T.Inv { s with store, io }
  have hgap : ∀ ch_id numData, store.pc = .resTest ch_id numData → 2 ^ 8 ≤ numData →
      (io.from_aie_strm ch_id).length ≠ numData := fun _ _ hpc hge => gap_of_step hs hstep hpc hge
  cases heffect with
  | idle hx hmoved howed =>
      subst hx
      refine ⟨hstore, ?_, ?_, hgap, hI.empty_eq, hI.mem_length, ?_, hI.writes_mem⟩
      · intro c hc
        rw [hmoved]
        exact hI.flow c hc
      · intro c hc
        have hready := hI.ready c hc
        rwa [← show owed T.burst_len store.pc c = owed T.burst_len s.store.pc c from
          congrFun howed c] at hready
      · intro c hc k hk
        rw [hmoved] at hk
        exact hI.mem_eq c hc k hk
  | commit ch_id n hch hx hmoved hle howed hready =>
      subst hx
      refine ⟨hstore, ?_, ?_, hgap, hI.empty_eq, hI.mem_length, ?_, hI.writes_mem⟩
      · intro c hc
        rw [hmoved]
        exact hI.flow c hc
      · intro c hc
        replace howed := congrFun howed c
        change owed T.burst_len store.pc c = _ at howed
        rw [howed]
        split
        · -- the test that found the words
          subst c
          rcases hready with ⟨rfl, hburst⟩ | ⟨-, hres⟩
          · exact of_decide_eq_true hburst
          · exact Nat.le_of_eq (of_decide_eq_true hres).symm
        · exact Nat.zero_le _
      · intro c hc k hk
        rw [hmoved] at hk
        exact hI.mem_eq c hc k hk
  | move ch_id hch hlt hx hmoved howed hother =>
      have hready := hI.ready ch_id hch
      change owed T.burst_len s.store.pc ch_id = owed T.burst_len store.pc ch_id + 1 at howed
      rw [hs.numWords_eq hch] at hlt
      obtain ⟨tmp, rest, hfifo⟩ : ∃ tmp rest, s.io.from_aie_strm ch_id = tmp :: rest :=
        List.exists_cons_of_length_pos (by omega)
      have hflow := hI.flow ch_id hch
      rw [hfifo] at hflow
      obtain ⟨rfl, hflow'⟩ := hflow.pop_fifo
      have hregion := hs.region_le ch_id hch _ hlt
      have hlen := length_word (k := moved s.store ch_id) hs hch
      replace hx : io = T.moveWord _ _ _ := hx hs.bounded
      simp only [moveWord, hfifo] at hx
      subst hx
      refine ⟨hstore, ?_, ?_, hgap, hI.empty_eq, ?_, ?_, ?_⟩
      · intro c hc
        rw [hmoved]
        by_cases heq : c = ch_id
        · subst heq
          simpa only [Function.update_self] using hflow'
        · simpa only [Function.update_of_ne heq] using hI.flow c hc
      · intro c hc
        by_cases heq : c = ch_id
        · subst heq
          rw [hfifo, List.length_cons] at hready
          simp only [Function.update_self]
          omega
        · have hready' := hI.ready c hc
          have howed' := hother c heq
          change owed T.burst_len store.pc c = owed T.burst_len s.store.pc c at howed'
          simpa only [Function.update_of_ne heq, howed'] using hready'
      · show (overwrite _ _ _).length = _
        rw [Nat.succ_mul] at hregion
        rw [length_overwrite, hI.mem_length]
        rw [hI.mem_length]
        show _ + (T.word ch_id _).length ≤ _
        rw [hlen]
        exact hregion
      · intro c hc k hk
        rw [← hI.mem_length] at hregion
        show T.p.readWord (overwrite s.io.mem
          (((T.chs.from_aie_ch ch_id).offsets + moved s.store ch_id) * T.p.memWidth)
          (T.word ch_id (moved s.store ch_id))) _ = _
        rw [hmoved] at hk
        by_cases heq : c = ch_id
        · subst heq
          rw [Function.update_self] at hk
          by_cases hlast : k = moved s.store c
          · -- the word just written
            subst hlast
            exact readWord_overwrite_self hlen hregion
          · rw [readWord_overwrite_of_ne hlen hregion (by omega)]
            exact hI.mem_eq c hc k (by omega)
        · rw [Function.update_of_ne heq] at hk
          have hk' : k < (T.chs.from_aie_ch c).words T.p := by
            have := MemLoop.moved_le hI.store (c := c) hc
            rw [hs.numWords_eq hc] at this
            omega
          rw [readWord_overwrite_of_ne hlen hregion (hs.disjoint c hc ch_id hch heq k hk' _ hlt)]
          exact hI.mem_eq c hc k hk
      · intro w hw
        rcases List.mem_cons.mp hw with rfl | hold
        · exact ⟨hch, Nat.le_add_right _ _, Nat.add_lt_add_left hlt _⟩
        · exact hI.writes_mem w hold

theorem inv_get (hs : T.Fits) {c : Nat} (hI : T.Inv s) (hC : NoWrap (.get c) s)
    (h : T.lts.step (.get c) s = some s') : T.Inv s' := by
  simp only [lts] at h
  split at h
  · rename_i hc
    simp only [getChannel, Option.map_eq_some_iff] at h
    obtain ⟨⟨pc, strm, out⟩, hstep, rfl⟩ := h
    have hflow := rxFlow_getStep (hs.sized c hc) (hI.flow c hc) hstep
    refine ⟨hI.store, ?_, ?_, ?_, hI.empty_eq, hI.mem_length, hI.mem_eq, hI.writes_mem⟩
    · intro c' hc'
      by_cases heq : c' = c
      · subst heq
        simpa only [Function.update_self] using hflow
      · simpa only [Function.update_of_ne heq] using hI.flow c' hc'
    · intro c' hc'
      have hready := hI.ready c' hc'
      by_cases heq : c' = c
      · subst heq
        simp only [Function.update_self, List.length_append]
        omega
      · simpa only [Function.update_of_ne heq] using hready
    · intro ch_id numData hpc hge
      have hgap := hI.gap ch_id numData hpc hge
      by_cases heq : ch_id = c
      · subst heq
        simp only [Function.update_self, List.length_append]
        rcases getStep_out hstep with rfl | ⟨hput, data, rfl⟩
        · simpa using hgap
        · exact hC numData hpc hge hput
      · simpa only [Function.update_of_ne heq] using hgap
  · cases h

theorem inv_aie {c : Nat} (hI : T.Inv s) (h : T.lts.step (.aie c) s = some s') : T.Inv s' := by
  simp only [lts] at h
  split at h
  · rename_i hc
    simp only [deliver] at h
    split at h
    · cases h
    · rename_i b rest htodo
      split at h
      · simp only [Option.some.injEq] at h
        subst h
        refine ⟨hI.store, ?_, hI.ready, hI.gap, hI.empty_eq, hI.mem_length, hI.mem_eq,
          hI.writes_mem⟩
        intro c' hc'
        by_cases heq : c' = c
        · subst heq
          have hflow := hI.flow c' hc'
          rw [htodo] at hflow
          simpa only [Function.update_self] using hflow.deliver
        · simpa only [Function.update_of_ne heq] using hI.flow c' hc'
      · cases h
  · cases h

theorem inv_step (hs : T.Fits) (l : RxLabel) (s s' : RxState) (hI : T.Inv s) (hC : NoWrap l s)
    (h : T.lts.step l s = some s') : T.Inv s' := by
  cases l with
  | store => exact inv_store hs hI h
  | get c => exact inv_get hs hI hC h
  | aie c => exact inv_aie hI h

theorem inv_of_run (hs : T.Fits) (hI : T.Inv s) (hrun : T.lts.RunIf NoWrap s s') : T.Inv s' :=
  hrun.invariant (inv_step hs) hI

/-! ### The way into the loop that never ends -/

/-- Past a FIFO that holds all of 256 words left or more, in front of the test of the rest or behind
it. -/
inductive Trap (T : Receive) (s : RxState) : Prop where
  | inside (h : Trapped s.store)
  | test (ch_id numData : Nat) (hc : ch_id < T.p.num_channels)
      (hpc : s.store.pc = .resTest ch_id numData) (hge : 2 ^ 8 ≤ numData)
      (hfull : (s.io.from_aie_strm ch_id).length = numData)
      (hall : moved s.store ch_id + numData = (T.chs.from_aie_ch ch_id).words T.p)
      (hflow : RxFlow T.p (T.chs.from_aie_ch ch_id) (T.beats ch_id) (s.get ch_id) (s.axi ch_id)
        (s.todo ch_id) (s.io.from_aie_strm ch_id) (moved s.store ch_id))

theorem Trap.not_done (h : T.Trap s) : s.store.pc ≠ .done := by
  cases h with
  | inside h => exact h.ne_done
  | test ch_id numData hc hpc => exact fun hdone => nomatch hpc.symm.trans hdone

theorem Trap.step (hs : T.Fits) {l : RxLabel} (ht : T.Trap s) (h : T.lts.step l s = some s') :
    T.Trap s' := by
  cases l with
  | store =>
      simp only [lts, Option.map_eq_some_iff] at h
      obtain ⟨⟨store, io⟩, hstep, rfl⟩ := h
      cases ht with
      | inside h => exact .inside (h.step hstep)
      | test ch_id numData _ hpc hge hfull =>
          exact .inside (trapped_of_wraps ⟨ch_id, numData, hpc, decide_eq_true hfull, hge⟩ hstep)
  | get c =>
      simp only [lts] at h
      split at h
      · rename_i hc
        simp only [getChannel, Option.map_eq_some_iff] at h
        obtain ⟨⟨pc, strm, out⟩, hstep, rfl⟩ := h
        cases ht with
        | inside h => exact .inside h
        | test ch_id numData hch hpc hge hfull hall hflow =>
            by_cases heq : ch_id = c
            · subst heq
              have hflow' := rxFlow_getStep (hs.sized ch_id hch) hflow hstep
              have hle := hflow'.occupancy_le
              rw [List.length_append] at hle
              refine .test ch_id numData hch hpc hge ?_ hall ?_
              · simp only [Function.update_self, List.length_append]
                omega
              · simpa only [Function.update_self] using hflow'
            · refine .test ch_id numData hch hpc hge ?_ hall ?_
              · simpa only [Function.update_of_ne heq] using hfull
              · simpa only [Function.update_of_ne heq] using hflow
      · cases h
  | aie c =>
      simp only [lts] at h
      split at h
      · simp only [deliver] at h
        split at h
        · cases h
        · rename_i b rest htodo
          split at h
          · simp only [Option.some.injEq] at h
            subst h
            cases ht with
            | inside h => exact .inside h
            | test ch_id numData hch hpc hge hfull hall hflow =>
                refine .test ch_id numData hch hpc hge hfull hall ?_
                by_cases heq : ch_id = c
                · subst heq
                  rw [htodo] at hflow
                  simpa only [Function.update_self] using hflow.deliver
                · simpa only [Function.update_of_ne heq] using hflow
          · cases h
      · cases h

/-- The word that fills the FIFO up to all of 256 words left leads into the trap. -/
theorem trap_of_not_noWrap (hs : T.Fits) {l : RxLabel} (hI : T.Inv s) (hC : ¬ NoWrap l s)
    (h : T.lts.step l s = some s') : T.Trap s' := by
  cases l with
  | store => exact absurd trivial hC
  | aie c => exact absurd trivial hC
  | get c =>
      simp only [NoWrap, not_forall, not_not] at hC
      obtain ⟨numData, hpc, hge, hput, hlast⟩ := hC
      simp only [lts] at h
      split at h
      · rename_i hc
        simp only [getChannel, Option.map_eq_some_iff] at h
        obtain ⟨⟨pc, strm, out⟩, hstep, rfl⟩ := h
        have hflow := rxFlow_getStep (hs.sized c hc) (hI.flow c hc) hstep
        obtain ⟨-, hframes, -⟩ : c < T.p.num_channels ∧ s.store.sched.frame_idx c + numData
            = T.storeMemories.numWords c ∧ 0 < numData := by
          have := hI.store.pc
          rwa [PcInv, hpc] at this
        rw [hs.numWords_eq hc] at hframes
        have hmoved : moved s.store c = s.store.sched.frame_idx c := by
          rw [moved, hpc]
          rfl
        obtain ⟨data, rfl⟩ := getStep_atPut hput hstep
        refine .test c numData hc hpc hge ?_ (by rw [hmoved]; exact hframes) ?_
        · simp only [Function.update_self, List.length_append, List.length_singleton]
          exact hlast
        · simpa only [Function.update_self] using hflow
      · cases h

/-- `store_memories` only returns from runs that kept away from the loop that never ends. -/
theorem noWrap_of_done (hs : T.Fits) (hrun : T.lts.Run T.init s) (hdone : s.store.pc = .done) :
    T.lts.RunIf NoWrap T.init s := by
  have htrap : T.lts.RunIf NoWrap T.init s ∨ T.Trap s := Lts.RunIf.or_trap T.Trap
    (fun l t u hprev hC h => trap_of_not_noWrap hs (inv_of_run hs (inv_init T) hprev) hC h)
    (fun l t u ht h => ht.step hs h) hrun
  exact htrap.resolve_right fun h => h.not_done hdone

end Receive

end AieTestHarness
