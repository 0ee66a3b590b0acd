import AieTestHarness.Kernel.Transmit
import AieTestHarness.Proof.MemLoop

/-!
# Functional mode towards the AIE: the flow of words

The FIFO of a channel holds the words moved by `load_memories` and not yet read by `feed`, and what
`feed` has sent is what it has read, cut into stream words. Room for the words `load_memories` has
committed to is reserved, so no `write_nb` finds a full FIFO.
-/

namespace AieTestHarness

open Slices

section Flow

variable {p : Kernel} {ch : Channel} {word : Nat → MemWord}

def beat (p : Kernel) (word : Nat → MemWord) (i : Nat) : Beat :=
  p.range (word (i / p.memRatio)) (i % p.memRatio)

/-- The memory words of a channel: the full ones and, when frames are left, one more. -/
def Channel.words (p : Kernel) (ch : Channel) : Nat :=
  (ch.numFrames + p.memRatio - 1) / p.memRatio

theorem words_of_rem_eq_zero (h : ch.numFrames % p.memRatio = 0) :
    ch.words p = ch.numFrames / p.memRatio := by
  have hR := p.memRatio_pos
  have hdiv := Nat.div_add_mod ch.numFrames p.memRatio
  unfold Channel.words
  rw [Nat.div_eq_iff hR, Nat.mul_comm]
  omega

theorem words_of_rem_ne_zero (h : ch.numFrames % p.memRatio ≠ 0) :
    ch.words p = ch.numFrames / p.memRatio + 1 := by
  have hR := p.memRatio_pos
  have hdiv := Nat.div_add_mod ch.numFrames p.memRatio
  have hlt := Nat.mod_lt ch.numFrames hR
  unfold Channel.words
  rw [Nat.div_eq_iff hR, Nat.add_mul, Nat.one_mul, Nat.mul_comm _ p.memRatio]
  omega

/-- The sum that rounds up does not overflow. -/
theorem MemLoop.numWords_eq {σ : Type} {L : MemLoop σ} {c : Nat}
    (hframes : (L.chs c).numFrames < 2 ^ 31) : L.numWords c = (L.chs c).words L.p := by
  have hR : L.p.memRatio ≤ 16 := L.p.ratio_le
  rw [MemLoop.numWords, u32_of_lt (by omega), Channel.words]

def FeedPc.reads (p : Kernel) (ch : Channel) : FeedPc → Nat
  | .wait _ => 0
  | .head i => i
  | .word i _ _ => i + 1
  | .rest _ _ => ch.numFrames / p.memRatio + 1
  | .done => ch.words p

def FeedPc.writes (p : Kernel) (ch : Channel) : FeedPc → Nat
  | .wait _ => 0
  | .head i => i * p.memRatio
  | .word i _ j => i * p.memRatio + j
  | .rest _ j => ch.numFrames / p.memRatio * p.memRatio + j
  | .done => ch.numFrames

def FeedPc.Ok (p : Kernel) (ch : Channel) (word : Nat → MemWord) : FeedPc → Prop
  | .wait _ => True
  | .head i => i ≤ ch.numFrames / p.memRatio
  | .word i data j => i < ch.numFrames / p.memRatio ∧ data = word i ∧ j ≤ p.memRatio
  | .rest data j => ch.numFrames % p.memRatio ≠ 0 ∧ data = word (ch.numFrames / p.memRatio)
      ∧ j ≤ ch.numFrames % p.memRatio
  | .done => True

def FeedPc.InRange (p : Kernel) (ch : Channel) : FeedPc → Prop
  | .wait _ => True
  | .head i => i ≤ ch.numFrames / p.memRatio
  | .word i _ j => i < ch.numFrames / p.memRatio ∧ j ≤ p.memRatio
  | .rest _ j => j ≤ ch.numFrames % p.memRatio
  | .done => True

theorem FeedPc.Ok.inRange {pc : FeedPc} (h : pc.Ok p ch word) : pc.InRange p ch := by
  cases pc with
  | wait count => trivial
  | head i => exact h
  | word i data j => exact ⟨h.1, h.2.2⟩
  | rest data j => exact h.2.2
  | done => trivial

theorem writes_of_feedStep {room : Bool} {pc pc' : FeedPc} {fifo fifo' : List MemWord}
    {out : List Beat} (hin : pc.InRange p ch)
    (h : feedStep p ch room fifo pc = some (pc', fifo', out)) :
    pc'.InRange p ch ∧ pc'.writes p ch = pc.writes p ch + out.length := by
  have hR : p.memRatio ≤ 16 := p.ratio_le
  have hdiv := Nat.div_add_mod ch.numFrames p.memRatio
  have hremlt := Nat.mod_lt ch.numFrames p.memRatio_pos
  rw [Nat.mul_comm] at hdiv
  cases pc with
  | wait count =>
      cases count <;> cases h <;> exact ⟨by simp [FeedPc.InRange], by simp [FeedPc.writes]⟩
  | head i =>
      simp only [feedStep] at h
      split at h
      · next hi =>
        cases fifo with
        | nil => cases h
        | cons data fifo =>
            cases h
            exact ⟨⟨hi, Nat.zero_le _⟩, rfl⟩
      · next hi =>
        obtain rfl : i = ch.numFrames / p.memRatio := Nat.le_antisymm hin (Nat.le_of_not_lt hi)
        split at h
        · cases fifo with
          | nil => cases h
          | cons data fifo =>
              cases h
              exact ⟨Nat.zero_le _, rfl⟩
        · cases h
          refine ⟨trivial, ?_⟩
          show ch.numFrames = ch.numFrames / p.memRatio * p.memRatio + 0
          omega
  | word i data j =>
      obtain ⟨hi, hj⟩ := hin
      simp only [feedStep] at h
      split at h
      · next hlt =>
        split at h
        · cases h
          exact ⟨⟨hi, hlt⟩, rfl⟩
        · cases h
      · cases h
        refine ⟨hi, ?_⟩
        show (i + 1) * p.memRatio = i * p.memRatio + j + 0
        rw [Nat.succ_mul]
        omega
  | rest data j =>
      have hj : j ≤ ch.numFrames % p.memRatio := hin
      simp only [feedStep] at h
      split at h
      · next hlt =>
        split at h
        · rw [Nat.mod_eq_of_lt (show j + 1 < 2 ^ 5 by omega)] at h
          cases h
          exact ⟨hlt, rfl⟩
        · cases h
      · cases h
        refine ⟨trivial, ?_⟩
        show ch.numFrames = ch.numFrames / p.memRatio * p.memRatio + j + 0
        omega
  | done => cases h

/-- The invariant of one channel, `moved` words of which `load_memories` has moved. -/
structure TxFlow (p : Kernel) (ch : Channel) (word : Nat → MemWord) (pc : FeedPc)
    (fifo : List MemWord) (sent : List Beat) (moved : Nat) : Prop where
  ok : pc.Ok p ch word
  reads_le : pc.reads p ch ≤ moved
  fifo_eq : fifo = (List.range' (pc.reads p ch) (moved - pc.reads p ch)).map word
  sent_eq : sent = (List.range (pc.writes p ch)).map (beat p word)

theorem beat_of_word {i j : Nat} (hj : j < p.memRatio) :
    beat p word (i * p.memRatio + j) = p.range (word i) j := by
  unfold beat
  rw [Nat.mul_comm, Nat.mul_add_div p.memRatio_pos, Nat.mul_add_mod, Nat.div_eq_of_lt hj,
    Nat.mod_eq_of_lt hj, Nat.add_zero]

theorem writes_le {pc : FeedPc} (hin : pc.InRange p ch) : pc.writes p ch ≤ ch.numFrames := by
  have hdiv := Nat.div_add_mod ch.numFrames p.memRatio
  rw [Nat.mul_comm] at hdiv
  cases pc with
  | wait count => exact Nat.zero_le _
  | head i =>
      have := Nat.mul_le_mul_right p.memRatio (show i ≤ ch.numFrames / p.memRatio from hin)
      show i * p.memRatio ≤ _
      omega
  | word i data j =>
      obtain ⟨hi, hj⟩ := hin
      have := Nat.mul_le_mul_right p.memRatio (show i + 1 ≤ ch.numFrames / p.memRatio from hi)
      rw [Nat.add_mul] at this
      show i * p.memRatio + j ≤ _
      omega
  | rest data j =>
      have hj : j ≤ ch.numFrames % p.memRatio := hin
      show ch.numFrames / p.memRatio * p.memRatio + j ≤ _
      omega
  | done => exact Nat.le_refl _

theorem TxFlow.sent_init {pc : FeedPc} {fifo : List MemWord} {sent : List Beat} {moved : Nat}
    (h : TxFlow p ch word pc fifo sent moved) :
    sent <+: (List.range ch.numFrames).map (beat p word) := by
  rw [h.sent_eq]
  refine List.IsPrefix.map _ ?_
  rw [← Nat.min_eq_left (writes_le h.ok.inRange), ← List.take_range]
  exact List.take_prefix _ _

theorem TxFlow.move {pc : FeedPc} {fifo : List MemWord} {sent : List Beat} {moved : Nat}
    (h : TxFlow p ch word pc fifo sent moved) :
    TxFlow p ch word pc (fifo ++ [word moved]) sent (moved + 1) := by
  have hle := h.reads_le
  refine ⟨h.ok, by omega, ?_, h.sent_eq⟩
  rw [h.fifo_eq, show moved + 1 - pc.reads p ch = moved - pc.reads p ch + 1 by omega,
    List.range'_concat, List.map_append, Nat.one_mul, List.map_singleton]
  congr 3
  omega

theorem TxFlow.pop {pc : FeedPc} {data : MemWord} {fifo : List MemWord} {sent : List Beat}
    {moved : Nat} (h : TxFlow p ch word pc (data :: fifo) sent moved) :
    data = word (pc.reads p ch) ∧ pc.reads p ch + 1 ≤ moved
      ∧ fifo = (List.range' (pc.reads p ch + 1) (moved - (pc.reads p ch + 1))).map word := by
  have hfifo := h.fifo_eq
  have hlt : pc.reads p ch < moved := by
    by_contra hge
    rw [Nat.sub_eq_zero_of_le (by omega)] at hfifo
    simp at hfifo
  rw [show moved - pc.reads p ch = moved - (pc.reads p ch + 1) + 1 by omega, List.range'_succ,
    List.map_cons, List.cons.injEq] at hfifo
  exact ⟨hfifo.1, hlt, hfifo.2⟩

theorem txFlow_feedStep {room : Bool} {pc pc' : FeedPc} {fifo fifo' : List MemWord}
    {sent out : List Beat} {moved : Nat} (hI : TxFlow p ch word pc fifo sent moved)
    (h : feedStep p ch room fifo pc = some (pc', fifo', out)) :
    TxFlow p ch word pc' fifo' (sent ++ out) moved := by
  have hR : p.memRatio ≤ 16 := p.ratio_le
  cases pc with
  | wait count =>
      cases count with
      | zero =>
          simp only [feedStep, Option.some.injEq, Prod.mk.injEq] at h
          obtain ⟨rfl, rfl, rfl⟩ := h
          refine ⟨Nat.zero_le _, hI.reads_le, hI.fifo_eq, ?_⟩
          simpa [FeedPc.writes] using hI.sent_eq
      | succ count =>
          simp only [feedStep, Option.some.injEq, Prod.mk.injEq] at h
          obtain ⟨rfl, rfl, rfl⟩ := h
          exact ⟨trivial, hI.reads_le, hI.fifo_eq, by simpa [FeedPc.writes] using hI.sent_eq⟩
  | head i =>
      have hi : i ≤ ch.numFrames / p.memRatio := hI.ok
      simp only [feedStep] at h
      by_cases hlt : i < ch.numFrames / p.memRatio
      · rw [if_pos hlt] at h
        cases fifo with
        | nil => cases h
        | cons data fifo =>
            simp only [Option.some.injEq, Prod.mk.injEq] at h
            obtain ⟨rfl, rfl, rfl⟩ := h
            obtain ⟨hdata, hle, hrest⟩ := hI.pop
            exact ⟨⟨hlt, hdata, Nat.zero_le _⟩, hle,
              hrest, by simpa [FeedPc.writes] using hI.sent_eq⟩
      · obtain rfl : i = ch.numFrames / p.memRatio := by omega
        rw [if_neg hlt] at h
        by_cases hrem : ch.numFrames % p.memRatio ≠ 0
        · rw [if_pos hrem] at h
          cases fifo with
          | nil => cases h
          | cons data fifo =>
              simp only [Option.some.injEq, Prod.mk.injEq] at h
              obtain ⟨rfl, rfl, rfl⟩ := h
              obtain ⟨hdata, hle, hrest⟩ := hI.pop
              exact ⟨⟨hrem, hdata, Nat.zero_le _⟩, hle,
                hrest, by simpa [FeedPc.writes] using hI.sent_eq⟩
        · rw [if_neg hrem, Option.some.injEq, Prod.mk.injEq, Prod.mk.injEq] at h
          obtain ⟨rfl, rfl, rfl⟩ := h
          have hrem0 : ch.numFrames % p.memRatio = 0 := not_not.mp hrem
          have hwords := words_of_rem_eq_zero hrem0
          have hframes : ch.numFrames / p.memRatio * p.memRatio = ch.numFrames :=
            Nat.div_mul_cancel (Nat.dvd_of_mod_eq_zero hrem0)
          refine ⟨trivial, ?_, ?_, ?_⟩
          · simpa [FeedPc.reads, hwords] using hI.reads_le
          · simpa [FeedPc.reads, hwords] using hI.fifo_eq
          · simpa [FeedPc.writes, hframes] using hI.sent_eq
  | word i data j =>
      obtain ⟨hi, hdata, hj⟩ := hI.ok
      simp only [feedStep] at h
      by_cases hlt : j < p.memRatio
      · rw [if_pos hlt] at h
        cases room with
        | false => simp at h
        | true =>
            simp only [if_true, Option.some.injEq, Prod.mk.injEq] at h
            obtain ⟨rfl, rfl, rfl⟩ := h
            refine ⟨⟨hi, hdata, hlt⟩, hI.reads_le, hI.fifo_eq, ?_⟩
            show _ = (List.range (i * p.memRatio + j + 1)).map _
            rw [List.range_succ, List.map_append, List.map_singleton, beat_of_word hlt, ← hdata,
              hI.sent_eq]
            rfl
      · obtain rfl : j = p.memRatio := by omega
        rw [if_neg hlt, Option.some.injEq, Prod.mk.injEq, Prod.mk.injEq] at h
        obtain ⟨rfl, rfl, rfl⟩ := h
        refine ⟨hi, hI.reads_le, hI.fifo_eq, ?_⟩
        rw [List.append_nil, hI.sent_eq]
        simp only [FeedPc.writes, Nat.succ_mul]
  | rest data j =>
      obtain ⟨hrem, hdata, hj⟩ := hI.ok
      have hremlt := Nat.mod_lt ch.numFrames p.memRatio_pos
      have hdiv := Nat.div_add_mod ch.numFrames p.memRatio
      simp only [feedStep] at h
      by_cases hlt : j < ch.numFrames % p.memRatio
      · rw [if_pos hlt, Nat.mod_eq_of_lt (show j + 1 < 2 ^ 5 by omega)] at h
        cases room with
        | false => simp at h
        | true =>
            simp only [if_true, Option.some.injEq, Prod.mk.injEq] at h
            obtain ⟨rfl, rfl, rfl⟩ := h
            refine ⟨⟨hrem, hdata, hlt⟩, hI.reads_le, hI.fifo_eq, ?_⟩
            show _ = (List.range (ch.numFrames / p.memRatio * p.memRatio + j + 1)).map _
            rw [List.range_succ, List.map_append, List.map_singleton, beat_of_word (by omega),
              ← hdata, hI.sent_eq]
            rfl
      · obtain rfl : j = ch.numFrames % p.memRatio := by omega
        rw [if_neg hlt, Option.some.injEq, Prod.mk.injEq, Prod.mk.injEq] at h
        obtain ⟨rfl, rfl, rfl⟩ := h
        have hwords := words_of_rem_ne_zero hrem
        refine ⟨trivial, ?_, ?_, ?_⟩
        · simpa [FeedPc.reads, hwords] using hI.reads_le
        · simpa [FeedPc.reads, hwords] using hI.fifo_eq
        · rw [List.append_nil, hI.sent_eq]
          simp only [FeedPc.writes]
          rw [Nat.mul_comm, hdiv]
  | done => simp [feedStep] at h

theorem feedStep_length_le {room : Bool} {pc pc' : FeedPc} {fifo fifo' : List MemWord}
    {out : List Beat} (h : feedStep p ch room fifo pc = some (pc', fifo', out)) :
    fifo'.length ≤ fifo.length := by
  unfold feedStep at h
  split at h <;> (try split at h) <;> (try split at h) <;> (try split at h) <;>
    simp_all

end Flow

/-! ### All channels -/

namespace Transmit

open MemLoop

variable {T : Transmit} {s s' : TxState}

def word (T : Transmit) (c k : Nat) : MemWord :=
  T.p.readWord T.mem ((T.chs.to_aie_ch c).offsets + k)

/-- Frames and offsets as the host's memory limit leaves them. -/
structure Small (T : Transmit) : Prop where
  frames_lt : ∀ c < T.p.num_channels, (T.chs.to_aie_ch c).numFrames < 2 ^ 31
  offsets_lt : ∀ c < T.p.num_channels, (T.chs.to_aie_ch c).offsets < 2 ^ 31

theorem Small.numWords_eq (hs : T.Small) {c : Nat} (hc : c < T.p.num_channels) :
    T.loadMemories.numWords c = (T.chs.to_aie_ch c).words T.p :=
  MemLoop.numWords_eq (hs.frames_lt c hc)

theorem words_le (p : Kernel) (ch : Channel) : ch.words p ≤ ch.numFrames := by
  have hR := p.memRatio_pos
  unfold Channel.words
  rw [Nat.div_le_iff_le_mul hR]
  have := Nat.le_mul_of_pos_right ch.numFrames hR
  omega

theorem Small.bounded (hs : T.Small) : T.loadMemories.Bounded := by
  intro c hc
  have hf := hs.frames_lt c hc
  have ho := hs.offsets_lt c hc
  have hw := words_le T.p (T.chs.to_aie_ch c)
  rw [hs.numWords_eq hc]
  show (T.chs.to_aie_ch c).offsets + _ < _
  omega

structure Inv (T : Transmit) (s : TxState) : Prop where
  load : T.loadMemories.Inv s.load
  flow : ∀ c < T.p.num_channels, TxFlow T.p (T.chs.to_aie_ch c) (T.word c) (s.feed c)
    (s.io.to_aie_strm c) (s.sent c) (moved s.load c)
  room : ∀ c < T.p.num_channels,
    (s.io.to_aie_strm c).length + owed T.burst_len s.load.pc c ≤ T.capacity
  lost_eq : s.io.lost = 0
  reads_mem : ∀ k ∈ s.io.reads, ∃ c < T.p.num_channels,
    (T.chs.to_aie_ch c).offsets ≤ k ∧ k < (T.chs.to_aie_ch c).offsets + T.loadMemories.numWords c

theorem inv_init (T : Transmit) : T.Inv T.init := by
  refine ⟨MemLoop.inv_start _, ?_, ?_, rfl, by simp [init]⟩
  · intro c _
    exact ⟨trivial, Nat.le_refl _, rfl, rfl⟩
  · intro c _
    exact Nat.zero_le _

theorem writeNb_of_room {x : TxIO} {ch_id : Nat} {tmp : MemWord}
    (h : (x.to_aie_strm ch_id).length < T.capacity) : T.writeNb x ch_id tmp =
      { x with to_aie_strm :=
          Function.update x.to_aie_strm ch_id (x.to_aie_strm ch_id ++ [tmp]) } :=
  if_pos h

theorem inv_load (hs : T.Small) (hI : T.Inv s) (hw : ¬ T.loadMemories.Wraps s.load s.io)
    (h : T.lts.step .load s = some s') : T.Inv s' := by
  simp only [lts, Option.map_eq_some_iff] at h
  obtain ⟨⟨load, io⟩, hstep, rfl⟩ := h
  obtain ⟨hload, heffect⟩ := MemLoop.step_spec hstep hw hI.load
  change T.Inv { s with load, io }
  cases heffect with
  | idle hx hmoved howed =>
      subst hx
      refine ⟨hload, ?_, ?_, hI.lost_eq, hI.reads_mem⟩
      · intro c hc
        rw [hmoved]
        exact hI.flow c hc
      · intro c hc
        have hroom := hI.room c hc
        rwa [← show owed T.burst_len load.pc c = owed T.burst_len s.load.pc c from
          congrFun howed c] at hroom
  | commit ch_id n hch hx hmoved hle howed hready =>
      subst hx
      refine ⟨hload, ?_, ?_, hI.lost_eq, hI.reads_mem⟩
      · intro c hc
        rw [hmoved]
        exact hI.flow c hc
      · intro c hc
        have hroom := hI.room c hc
        replace howed := congrFun howed c
        change owed T.burst_len load.pc c = _ at howed
        rw [howed]
        split
        · -- the test that let the words in
          subst c
          rcases hready with ⟨rfl, hburst⟩ | ⟨-, hres⟩
          · exact of_decide_eq_true hburst
          · exact of_decide_eq_true hres
        · exact Nat.le_trans (Nat.le_add_right _ _) hroom
  | move ch_id hch hlt hx hmoved howed hother =>
      have hroom := hI.room ch_id hch
      change owed T.burst_len s.load.pc ch_id = owed T.burst_len load.pc ch_id + 1 at howed
      have hfull : (s.io.to_aie_strm ch_id).length < T.capacity := by omega
      obtain rfl : io = _ := (hx hs.bounded).trans (writeNb_of_room hfull)
      refine ⟨hload, ?_, ?_, hI.lost_eq, ?_⟩
      · intro c hc
        rw [hmoved]
        by_cases heq : c = ch_id
        · subst heq
          simp only [Function.update_self]
          exact (hI.flow c hc).move
        · simp only [Function.update_of_ne heq]
          exact hI.flow c hc
      · intro c hc
        by_cases heq : c = ch_id
        · subst heq
          simp only [Function.update_self, List.length_append, List.length_singleton]
          omega
        · have hroom' := hI.room c hc
          have howed' := hother c heq
          change owed T.burst_len load.pc c = owed T.burst_len s.load.pc c at howed'
          simpa only [Function.update_of_ne heq, howed'] using hroom'
      · intro k hk
        rcases List.mem_cons.mp hk with rfl | hold
        · exact ⟨ch_id, hch, Nat.le_add_right _ _, Nat.add_lt_add_left hlt _⟩
        · exact hI.reads_mem k hold

theorem inv_feed {c : Nat} (hI : T.Inv s) (h : T.lts.step (.feed c) s = some s') : T.Inv s' := by
  simp only [lts] at h
  split at h
  · rename_i hc
    simp only [feedChannel, Option.map_eq_some_iff] at h
    obtain ⟨⟨pc, memStr, out⟩, hstep, rfl⟩ := h
    have hflow := txFlow_feedStep (hI.flow c hc) hstep
    refine ⟨hI.load, ?_, ?_, hI.lost_eq, hI.reads_mem⟩
    · intro c' hc'
      by_cases heq : c' = c
      · subst heq
        simpa only [Function.update_self] using hflow
      · simpa only [Function.update_of_ne heq] using hI.flow c' hc'
    · intro c' hc'
      have hroom := hI.room c' hc'
      by_cases heq : c' = c
      · subst heq
        simp only [Function.update_self]
        have := feedStep_length_le hstep
        omega
      · simpa only [Function.update_of_ne heq] using hroom
  · cases h

theorem inv_aie {c : Nat} (hI : T.Inv s) (h : T.lts.step (.aie c) s = some s') : T.Inv s' := by
  simp only [lts] at h
  split at h
  · cases h
  · simp only [Option.some.injEq] at h
    subst h
    exact ⟨hI.load, hI.flow, hI.room, hI.lost_eq, hI.reads_mem⟩

theorem inv_of_run (hs : T.Small) (hrun : T.lts.RunIf T.NoWrap T.init s) : T.Inv s := by
  refine hrun.invariant ?_ (inv_init T)
  intro l s s' hI hC h
  cases l with
  | load => exact inv_load hs hI hC h
  | feed c => exact inv_feed hI h
  | aie c => exact inv_aie hI h

/-- `load_memories` only returns from runs that kept away from the loop that never ends. -/
theorem noWrap_of_done (hrun : T.lts.Run T.init s) (hdone : s.load.pc = .done) :
    T.lts.RunIf T.NoWrap T.init s := by
  have htrap : T.lts.RunIf T.NoWrap T.init s ∨ MemLoop.Trapped s.load :=
    Lts.RunIf.or_trap (fun s => MemLoop.Trapped s.load) ?_ ?_ hrun
  · exact htrap.resolve_right fun h => h.ne_done hdone
  · intro l t u _ hC h
    cases l with
    | load =>
        simp only [lts, Option.map_eq_some_iff] at h
        obtain ⟨⟨load, io⟩, hstep, rfl⟩ := h
        exact MemLoop.trapped_of_wraps (not_not.mp hC) hstep
    | feed c => exact absurd trivial hC
    | aie c => exact absurd trivial hC
  · intro l t u ht h
    cases l with
    | load =>
        simp only [lts, Option.map_eq_some_iff] at h
        obtain ⟨⟨load, io⟩, hstep, rfl⟩ := h
        exact ht.step hstep
    | feed c =>
        simp only [lts] at h
        split at h
        · simp only [feedChannel, Option.map_eq_some_iff] at h
          obtain ⟨⟨pc, memStr, out⟩, -, rfl⟩ := h
          exact ht
        · cases h
    | aie c =>
        simp only [lts] at h
        split at h
        · cases h
        · simp only [Option.some.injEq] at h
          subst h
          exact ht

end Transmit

end AieTestHarness
