import AieTestHarness.Proof.Narrowing
import AieTestHarness.Proof.PerfReceive

/-!
# What an earlier run has left in the buffers

The URAM buffers of the channels are not cleared between runs. What `feed` plays has been loaded in
this run, whatever the sizes. What `store_buff` packs has been received in this run as long as a
channel that stores anything counts at least one repetition; one that counts none stores what it
found.
-/

namespace AieTestHarness

open Slices Loops Transaction

/-- The buffers before a run: arrays of stream words. -/
def UramOk (p : Platform) (uram : Nat → List Beat) : Prop :=
  ∀ c < p.num_channels, (uram c).length = p.depth ∧ Sized p (uram c)

def sentBeats (p : Platform) (t : Transaction) (toUram : Nat → List Beat) (c : Nat) : List Beat :=
  if c < p.num_channels then
    let ch := (loadCfg p t.cfg_ptr).to_aie_ch c
    feedPerf p ch (loadBuff p ch t.to_aie_ptr (toUram c))
  else []

/-- What the AIE does: the stream words it delivers on each channel, depending on all it
receives. -/
abbrev Aie := (Nat → List Beat) → Nat → List Beat

/-- The run from these buffers returns and leaves `mem`. -/
def Stored (p : Platform) (t : Transaction) (aie : Aie) (toUram fromUram : Nat → List Beat)
    (mem : List UInt8) : Prop :=
  ∃ buffs, PerfReceived p (loadCfg p t.cfg_ptr) fromUram (aie (sentBeats p t toUram)) buffs
    ∧ mem = storeBuffs p (loadCfg p t.cfg_ptr) buffs t.from_aie_ptr

/-- Two runs that differ in what the buffers held before send the same words, leave the same memory
and the same data with the user. -/
structure SameRuns (p : Platform) (t : Transaction) (aie : Aie)
    (toUram toUram' fromUram fromUram' : Nat → List Beat) : Prop where
  sent : ∀ c < p.num_channels, sentBeats p t toUram c = sentBeats p t toUram' c
  returns : (∃ mem, Stored p t aie toUram fromUram mem)
    → ∃ mem, Stored p t aie toUram' fromUram' mem
  stored : ∀ mem mem', Stored p t aie toUram fromUram mem → Stored p t aie toUram' fromUram' mem' →
    mem = mem'
  outputs : ∀ mem mem' perf_ptr perf_ptr' t₁ t₂, Stored p t aie toUram fromUram mem →
    Stored p t aie toUram' fromUram' mem' →
    { t with from_aie_ptr := mem, perf_ptr }.handleOutputs = .ok t₁ →
    { t with from_aie_ptr := mem', perf_ptr := perf_ptr' }.handleOutputs = .ok t₂ →
    t₁.args_rec = t₂.args_rec

/-- Nothing an earlier run has left matters. -/
def NoLeak (p : Platform) (t : Transaction) : Prop :=
  ∀ aie toUram toUram' fromUram fromUram', UramOk p toUram → UramOk p toUram' → UramOk p fromUram →
    UramOk p fromUram' → SameRuns p t aie toUram toUram' fromUram fromUram'

/-! ### What `get` overwrites -/

section Get

variable {p : Platform} {ch : Channel}

def AgreeOn (K : Nat → Prop) (buff buff' : List Beat) : Prop := ∀ k, K k → buff[k]? = buff'[k]?

theorem AgreeOn.set {K : Nat → Prop} {buff buff' : List Beat} (h : AgreeOn K buff buff')
    (hlen : buff.length = buff'.length) (slot : Nat) (tmp : Beat) :
    AgreeOn (fun k => K k ∨ k = slot) (buff.set slot tmp) (buff'.set slot tmp) := by
  intro k hk
  rw [List.getElem?_set, List.getElem?_set, hlen]
  by_cases heq : slot = k
  · rw [if_pos heq, if_pos heq]
  · rw [if_neg heq, if_neg heq]
    exact h k (hk.resolve_right (Ne.symm heq))

variable (p ch) in
/-- From both buffers the same words are read, and what has been written is the same. -/
theorem getFrames_agree (i : Nat) (strm : List Beat) {K : Nat → Prop} {buff buff' : List Beat}
    (hlen : buff.length = buff'.length) (hagree : AgreeOn K buff buff') :
    (getFrames p ch i buff strm = none ∧ getFrames p ch i buff' strm = none)
    ∨ ∃ b b' rest, getFrames p ch i buff strm = some (b, rest)
      ∧ getFrames p ch i buff' strm = some (b', rest) ∧ b.length = b'.length
      ∧ AgreeOn (fun k => K k ∨ ∃ j < i, k = (ch.numFrames - (j + 1)) % p.depth) b b' := by
  induction i generalizing K buff buff' strm with
  | zero =>
      refine Or.inr ⟨buff, buff', strm, rfl, rfl, hlen, fun k hk => hagree k ?_⟩
      exact hk.resolve_right fun ⟨j, hj, _⟩ => Nat.not_lt_zero j hj
  | succ i ih =>
      cases strm with
      | nil => exact Or.inl ⟨rfl, rfl⟩
      | cons tmp strm =>
          have hset := hagree.set hlen ((ch.numFrames - (i + 1)) % p.depth) tmp
          rcases ih strm (by rw [List.length_set, List.length_set, hlen]) hset with
            ⟨hnone, hnone'⟩ | ⟨b, b', rest, hb, hb', hlen', hagree'⟩
          · exact Or.inl ⟨hnone, hnone'⟩
          · refine Or.inr ⟨b, b', rest, hb, hb', hlen', fun k hk => hagree' k ?_⟩
            rcases hk with hk | ⟨j, hj, rfl⟩
            · exact Or.inl (Or.inl hk)
            · by_cases hlast : j = i
              · rw [hlast]
                exact Or.inl (Or.inr rfl)
              · exact Or.inr ⟨j, by omega, rfl⟩

/-- One repetition writes every slot that is stored. -/
theorem getReps_agree {n : Nat} (strm : List Beat) {K : Nat → Prop} {buff buff' : List Beat}
    (hlen : buff.length = buff'.length) (hagree : AgreeOn K buff buff') :
    (getReps p ch n buff strm = none ∧ getReps p ch n buff' strm = none)
    ∨ ∃ b b' rest, getReps p ch n buff strm = some (b, rest)
      ∧ getReps p ch n buff' strm = some (b', rest) ∧ b.length = b'.length
      ∧ AgreeOn (fun k => K k ∨ n ≠ 0 ∧ k < ch.kept p) b b' := by
  induction n generalizing K buff buff' strm with
  | zero =>
      refine Or.inr ⟨buff, buff', strm, rfl, rfl, hlen, fun k hk => hagree k ?_⟩
      exact hk.resolve_right fun h => h.1 rfl
  | succ n ih =>
      rcases getFrames_agree p ch ch.numFrames strm hlen hagree with
        ⟨hnone, hnone'⟩ | ⟨b, b', rest, hb, hb', hlen', hagree'⟩
      · exact Or.inl ⟨by rw [getReps, hnone]; rfl, by rw [getReps, hnone']; rfl⟩
      · have hround : AgreeOn (fun k => K k ∨ k < ch.kept p) b b' := by
          intro k hk
          refine hagree' k (hk.imp id fun hkept => ?_)
          have hlt : k < ch.numFrames := Nat.lt_of_lt_of_le hkept (Nat.min_le_left _ _)
          have hdepth : k < p.depth := Nat.lt_of_lt_of_le hkept (Nat.min_le_right _ _)
          refine ⟨ch.numFrames - (k + 1), by omega, ?_⟩
          rw [show ch.numFrames - (ch.numFrames - (k + 1) + 1)
            = k by omega, Nat.mod_eq_of_lt hdepth]
        rw [getReps, getReps, hb, hb']
        rcases ih rest hlen' hround with
          ⟨hnone, hnone'⟩ | ⟨c, c', rest', hc, hc', hlen'', hagree''⟩
        · exact Or.inl ⟨hnone, hnone'⟩
        · exact Or.inr ⟨c, c', rest', hc, hc', hlen'', fun k hk =>
            hagree'' k (Or.inl (hk.imp id And.right))⟩

end Get

/-! ### What is stored, and what is copied back -/

section Same

variable {p : Platform} {ch : Channel} {t t' : Transaction} {args : List TestHarnessArgs}

/-- Only the kept slots are stored. -/
theorem storeBuff_congr (hmode : ch.mode = .PERF_MODE) {buff buff' : List Beat}
    (hagree : AgreeOn (· < ch.kept p) buff buff') : storeBuff p ch buff = storeBuff p ch buff' := by
  rw [storeBuff_eq hmode, storeBuff_eq hmode]
  refine List.map_congr_left fun i _ => ?_
  congr 1
  refine List.foldl_ext _ _ _ fun data j hj => ?_
  have hlt := List.mem_range.mp hj
  have hkept : i * p.memRatio + j < ch.kept p := by omega
  rw [List.getD_eq_getElem?_getD, List.getD_eq_getElem?_getD, hagree _ hkept]

inductive Copied (t : Transaction) (a : TestHarnessArgs) : TestHarnessArgs → Prop where
  | same (hfrom : ¬ a.IsFrom t.setup) : Copied t a a
  | data {off : Nat} {data : HostBuffer} (hfrom : a.IsFrom t.setup)
      (hoff : t.from_mem_word_offset[a.fromChn]? = some off)
      (hcopy : copyOut a.data t.from_aie_ptr (u32 (off * t.setup.memWidth))
        (outputBytes t.setup t.mode a) = .ok data) : Copied t a { a with data }

theorem copied_unique : Relator.RightUnique (Copied t) := by
  intro a a₁ a₂ h₁ h₂
  cases h₁ with
  | same hfrom =>
      cases h₂ with
      | same => rfl
      | data hfrom' => exact absurd hfrom' hfrom
  | data hfrom hoff hcopy =>
      cases h₂ with
      | same hfrom' => exact absurd hfrom hfrom'
      | data _ hoff' hcopy' =>
          rw [hoff, Option.some.injEq] at hoff'
          rw [hoff'] at hcopy
          rw [Except.ok.inj (hcopy.symm.trans hcopy')]

theorem outputTo_args {a a' : TestHarnessArgs} {perf_map perf_map' : Nat → Option (Nat × Nat)}
    (h : t.outputTo (a, perf_map) = .ok (a', perf_map')) : a' = a := by
  simp only [outputTo] at h
  split at h
  · simp only [bind_eq_ok, pure, Except.pure, Except.ok.injEq, Prod.mk.injEq] at h
    obtain ⟨_, _, rfl, _⟩ := h
    rfl
  · cases h
    rfl

theorem outputFrom_args {a a' : TestHarnessArgs} {perf_map perf_map' : Nat → Option (Nat × Nat)}
    (h : t.outputFrom (a, perf_map) = .ok (a', perf_map')) : Copied t a a' := by
  simp only [outputFrom] at h
  split at h <;> rename_i hfrom
  · simp only [bind_eq_ok, pure, Except.pure, Except.ok.injEq, Prod.mk.injEq] at h
    obtain ⟨off, hoff, data, hcopy, _, _, rfl, _⟩ := h
    exact .data hfrom (getAt_eq_ok.mp hoff) hcopy
  · cases h
    exact .same hfrom

theorem outputArgument_args {a a' : TestHarnessArgs} {perf_map perf_map' : Nat → Option (Nat × Nat)}
    (h : outputArgument t perf_map a = .ok (a', perf_map')) : Copied t a a' := by
  unfold outputArgument at h
  split at h
  · obtain ⟨⟨a₁, perf₁⟩, hto, hfrom⟩ := bind_eq_ok.mp h
    obtain rfl := outputTo_args hto
    exact outputFrom_args hfrom
  · obtain ⟨⟨a₁, perf₁⟩, hfrom, hto⟩ := bind_eq_ok.mp h
    obtain rfl := outputTo_args hto
    exact outputFrom_args hfrom

theorem handleOutputs_args {t'' : Transaction} (h : t.handleOutputs = .ok t'') :
    List.Forall₂ (Copied t) t.args_rec t''.args_rec := by
  simp only [handleOutputs, bind_eq_ok, pure, Except.pure, Except.ok.injEq] at h
  obtain ⟨⟨args', perf'⟩, hloop, rfl⟩ := h
  refine foldlM_invariant (fun done s => List.Forall₂ (Copied t) done s.1) .nil ?_ hloop
  rintro done x rest ⟨done', perf_map⟩ ⟨done'', perf_map'⟩ - hI hstep
  obtain ⟨⟨x', perf''⟩, hout, hstep⟩ := bind_eq_ok.mp hstep
  cases hstep
  exact List.rel_append hI (.cons (outputArgument_args hout) .nil)

/-- The counters do not change what the user gets. -/
theorem outputs_eq {mem : List UInt8} {perf_ptr perf_ptr' : List Nat} {t₁ t₂ : Transaction}
    (h₁ : { t with from_aie_ptr := mem, perf_ptr }.handleOutputs = .ok t₁)
    (h₂ : { t with from_aie_ptr := mem, perf_ptr := perf_ptr' }.handleOutputs = .ok t₂) :
    t₁.args_rec = t₂.args_rec := by
  have hcopied : List.Forall₂ (Copied { t with from_aie_ptr := mem, perf_ptr }) t.args_rec
      t₂.args_rec := by
    refine (handleOutputs_args h₂).imp fun a a' h => ?_
    cases h with
    | same hfrom => exact .same hfrom
    | data hfrom hoff hcopy => exact .data hfrom hoff hcopy
  exact List.right_unique_forall₂' copied_unique (handleOutputs_args h₁) hcopied

/-- A channel that stores anything counts at least one repetition. -/
def Recorded (p : Platform) (args : List TestHarnessArgs) : Prop :=
  ∀ a ∈ args, a.IsFrom p.toSetup → u32 (a.size / p.word_size) ≠ 0 → u32 a.repetition.toNat ≠ 0

instance : Decidable (Recorded p args) := inferInstanceAs (Decidable (∀ a ∈ args, _))

theorem numRep_ne_zero {cfg offs : List Nat} (hchecked : ∀ a ∈ args, a.Checked p.toSetup)
    (hdecoded : Decoded p .PERF_MODE args args cfg offs)
    (hrecorded : Recorded p args) {c : Nat} (hc : c < p.num_channels)
    (hframes : (loadChannel p cfg 4 c).numFrames ≠ 0) : (loadChannel p cfg 4 c).numRep ≠ 0 := by
  by_cases h : ∀ a ∈ args, a.slot p ≠ (4, c)
  · exact absurd (hdecoded.unlisted 4 c (Or.inr rfl) hc h) hframes
  · simp only [not_forall, not_not] at h
    obtain ⟨a, ha, hslot⟩ := h
    have hafrom : a.IsFrom p.toSetup := (hchecked a ha).1.resolve_left fun hato => by
      rw [slot_of_to hato] at hslot
      cases hslot
    have hchannel := hdecoded.listed a ha
    rw [hslot] at hchannel
    rw [hchannel] at hframes ⊢
    exact hrecorded a ha hafrom hframes

theorem sentBeats_eq (hmode : cfgMode t'.cfg_ptr = .PERF_MODE) {toUram toUram' : Nat → List Beat}
    (hto : UramOk p toUram) (hto' : UramOk p toUram') :
    sentBeats p t' toUram = sentBeats p t' toUram' := by
  funext c
  unfold sentBeats
  split
  · rename_i hc
    exact feedPerf_congr hmode (hto' c hc).1 (hto c hc).1 fun _ _ => rfl
  · rfl

/-- Where a channel that stores anything counts a repetition, the memory is the same. -/
theorem stored_of_stored (hchecked : ∀ a ∈ args, a.Checked p.toSetup)
    (hdecoded : Decoded p .PERF_MODE args args t'.cfg_ptr t'.from_mem_word_offset)
    (hrecorded : Recorded p args) {aie : Aie} {toUram toUram' fromUram fromUram' : Nat → List Beat}
    (hto : UramOk p toUram) (hto' : UramOk p toUram') (hfrom : UramOk p fromUram)
    (hfrom' : UramOk p fromUram') {mem : List UInt8} (h : Stored p t' aie toUram fromUram mem) :
    Stored p t' aie toUram' fromUram' mem := by
  obtain ⟨buffs, hreceived, rfl⟩ := h
  rw [sentBeats_eq hdecoded.cfg_mode hto hto'] at hreceived
  have hgot : ∀ c, ∃ buff, c < p.num_channels →
      (∃ rest, getPerf p ((loadCfg p t'.cfg_ptr).from_aie_ch c) (fromUram' c)
        (aie (sentBeats p t' toUram') c) = some (buff, rest))
      ∧ AgreeOn (· < ((loadCfg p t'.cfg_ptr).from_aie_ch c).kept p) (buffs c) buff := by
    intro c
    by_cases hc : c < p.num_channels
    · obtain ⟨rest, hget⟩ := hreceived.returned c hc
      have hlen : (fromUram c).length = (fromUram' c).length :=
        (hfrom c hc).1.trans (hfrom' c hc).1.symm
      rcases getReps_agree (aie (sentBeats p t' toUram') c) (K := fun _ => False) hlen
        (fun _ h => h.elim) with ⟨hnone, _⟩ | ⟨b, b', rest', hb, hb', _, hagree⟩
      · rw [getPerf, hnone] at hget
        cases hget
      · rw [getPerf, hb, Option.some.injEq, Prod.mk.injEq] at hget
        obtain ⟨rfl, _⟩ := hget
        refine ⟨b', fun _ => ⟨⟨rest', hb'⟩, fun k hk => hagree k (Or.inr ⟨?_, hk⟩)⟩⟩
        refine numRep_ne_zero hchecked hdecoded hrecorded hc fun hzero => ?_
        have hle := Nat.lt_of_lt_of_le hk (Nat.min_le_left _ _)
        exact Nat.not_lt_zero k (hzero ▸ hle)
    · exact ⟨[], fun h => absurd h hc⟩
  choose buffs' hbuffs' using hgot
  refine ⟨buffs', ⟨fun c hc => (hfrom' c hc).1, fun c hc => (hfrom' c hc).2, hreceived.strm_sized,
    fun c hc => (hbuffs' c hc).1⟩, ?_⟩
  refine List.foldl_ext _ _ _ fun mem c hc => ?_
  rw [storeBuff_congr hdecoded.cfg_mode (hbuffs' c (List.mem_range.mp hc)).2]

theorem stored_unique {aie : Aie} {toUram fromUram : Nat → List Beat} {mem mem' : List UInt8}
    (h : Stored p t aie toUram fromUram mem) (h' : Stored p t aie toUram fromUram mem') :
    mem = mem' := by
  obtain ⟨buffs, hreceived, rfl⟩ := h
  obtain ⟨buffs', hreceived', rfl⟩ := h'
  refine List.foldl_ext _ _ _ fun mem c hc => ?_
  obtain ⟨rest, hget⟩ := hreceived.returned c (List.mem_range.mp hc)
  obtain ⟨rest', hget'⟩ := hreceived'.returned c (List.mem_range.mp hc)
  rw [hget, Option.some.injEq, Prod.mk.injEq] at hget'
  rw [hget'.1]

theorem noLeak_of_recorded (hchecked : ∀ a ∈ args, a.Checked p.toSetup)
    (hdecoded : Decoded p .PERF_MODE args args t'.cfg_ptr t'.from_mem_word_offset)
    (hrecorded : Recorded p args) : NoLeak p t' := by
  intro aie toUram toUram' fromUram fromUram' hto hto' hfrom hfrom'
  have hstored : ∀ mem mem', Stored p t' aie toUram fromUram mem →
      Stored p t' aie toUram' fromUram' mem' → mem = mem' := fun mem mem' h h' =>
    stored_unique (stored_of_stored hchecked hdecoded hrecorded hto hto' hfrom hfrom' h) h'
  refine ⟨fun c _ => congrFun (sentBeats_eq hdecoded.cfg_mode hto hto') c, ?_, hstored, ?_⟩
  · rintro ⟨mem, h⟩
    exact ⟨mem, stored_of_stored hchecked hdecoded hrecorded hto hto' hfrom hfrom' h⟩
  · intro mem mem' perf_ptr perf_ptr' t₁ t₂ h h' h₁ h₂
    obtain rfl := hstored mem mem' h h'
    exact outputs_eq h₁ h₂

/-! ### A channel that stores what it found -/

def filled (p : Platform) (b : UInt8) : List Beat :=
  List.replicate p.depth (List.replicate p.word_size b)

theorem uramOk_filled {uram : Nat → UInt8} : UramOk p (fun c => filled p (uram c)) :=
  fun _ _ => ⟨List.length_replicate, sized_replicate List.length_replicate⟩

def zeros (p : Platform) (t : Transaction) : Aie := fun _ c =>
  List.replicate (((loadCfg p t.cfg_ptr).from_aie_ch c).numRep
    * ((loadCfg p t.cfg_ptr).from_aie_ch c).numFrames) (List.replicate p.word_size 0)

theorem exists_stored (toUram : Nat → List Beat) (uram : Nat → UInt8) :
    ∃ buffs, PerfReceived p (loadCfg p t.cfg_ptr) (fun c => filled p (uram c))
      (zeros p t (sentBeats p t toUram)) buffs := by
  have hgot : ∀ c, ∃ buff, ∃ rest, getPerf p ((loadCfg p t.cfg_ptr).from_aie_ch c)
      (filled p (uram c)) (zeros p t (sentBeats p t toUram) c) = some (buff, rest) := fun c =>
    (getReps_returns p _ (filled p (uram c)) _ (by rw [zeros, List.length_replicate])).imp
      fun _ h => ⟨_, h⟩
  choose buffs hbuffs using hgot
  exact ⟨buffs, fun c hc => (uramOk_filled c hc).1, fun c hc => (uramOk_filled c hc).2,
    fun _ _ => sized_replicate List.length_replicate, fun c _ => hbuffs c⟩

/-- The region of a channel that counts no repetition gets what its buffer held. -/
theorem region_of_stored (haddr : Addressable p) (hlayout : PerfLayout p t args) {c : Nat}
    (hc : c < p.num_channels) (hzero : ((loadCfg p t.cfg_ptr).from_aie_ch c).numRep = 0)
    {uram : Nat → UInt8} {strm buffs : Nat → List Beat}
    (hreceived : PerfReceived p (loadCfg p t.cfg_ptr) (fun c => filled p (uram c)) strm buffs) :
    slice (c * p.bufBytes) (((loadCfg p t.cfg_ptr).from_aie_ch c).kept p * p.word_size)
        (storeBuffs p (loadCfg p t.cfg_ptr) buffs t.from_aie_ptr)
      = List.replicate (((loadCfg p t.cfg_ptr).from_aie_ch c).kept p * p.word_size) (uram c) := by
  have hstored := (storeBuffs_spec haddr (fun c hc => perfPlaced_of_layout hlayout hc)
    (fun c hc => (hreceived.buffs_ok hc).1) (fun c hc => (hreceived.buffs_ok hc).2)
    hlayout.from_length).2 c hc
  obtain ⟨rest, hget⟩ := hreceived.returned c hc
  rw [getPerf, hzero, getReps, Option.some.injEq, Prod.mk.injEq] at hget
  have hkept : ((loadCfg p t.cfg_ptr).from_aie_ch c).kept p ≤ p.depth := Nat.min_le_right _ _
  rw [hstored, ← hget.1, filled, List.take_replicate, Nat.min_eq_left hkept,
    List.flatten_replicate_replicate]

/-- An argument the PL counts no repetition of gets what an earlier run has left. -/
theorem recorded_of_noLeak (haddr : Addressable p) (hlayout : PerfLayout p t args)
    (hnoLeak : NoLeak p t) : Recorded p args := by
  intro a ha hafrom hframes hrep
  have hc := hafrom.fromChn_lt
  have hchannel : (loadCfg p t.cfg_ptr).from_aie_ch a.fromChn = perfChannel p a a.fromChn :=
    (hlayout.listed_from a ha hafrom).1
  obtain ⟨toUram, htoUram⟩ : ∃ toUram, toUram = fun _ : Nat => filled p 0 := ⟨_, rfl⟩
  have hto : UramOk p toUram := htoUram ▸ uramOk_filled
  obtain ⟨buffs, hreceived⟩ := exists_stored (p := p) (t := t) toUram (fun _ => 0)
  obtain ⟨buffs', hreceived'⟩ := exists_stored (p := p) (t := t) toUram (fun _ => 1)
  have hsame :=
    (hnoLeak (zeros p t) toUram toUram _ _ hto hto uramOk_filled uramOk_filled).stored _ _
    ⟨buffs, hreceived, rfl⟩ ⟨buffs', hreceived', rfl⟩
  have hzero : ((loadCfg p t.cfg_ptr).from_aie_ch a.fromChn).numRep = 0 := by
    rw [hchannel]
    exact hrep
  have hregion := region_of_stored haddr hlayout hc hzero hreceived
  rw [hsame, region_of_stored haddr hlayout hc hzero hreceived'] at hregion
  have hkept : 0 < ((loadCfg p t.cfg_ptr).from_aie_ch a.fromChn).kept p * p.word_size := by
    refine Nat.mul_pos (Nat.lt_min.mpr ⟨?_, p.depth_pos⟩) p.word_pos
    rw [hchannel]
    exact Nat.pos_of_ne_zero hframes
  have hhead := congrArg List.head? hregion
  rw [List.head?_replicate, List.head?_replicate, if_neg hkept.ne', if_neg hkept.ne'] at hhead
  exact absurd (Option.some.inj hhead) (by decide)

end Same

/-- Nothing of an earlier run gets out where each channel that stores counts a repetition, and where
the regions of the channels are addressable only there. -/
theorem noLeak_iff (p : Platform) (t t' : Transaction) (args : List TestHarnessArgs)
    (hsetup : t.setup = p.toSetup) (hmode : t.mode = .PERF_MODE) (hdistinct : DistinctChannels args)
    (hinputs : t.handleInputs args = .ok t') :
    (Recorded p args → NoLeak p t') ∧ (Addressable p → (NoLeak p t' ↔ Recorded p args)) := by
  obtain ⟨hchecked, -⟩ := handleInputs_eq_ok hinputs
  rw [hsetup] at hchecked
  have hdecoded := decoded_of_handleInputs hsetup hdistinct hinputs
  rw [hmode] at hdecoded
  refine ⟨noLeak_of_recorded hchecked hdecoded, fun haddr =>
    ⟨?_, noLeak_of_recorded hchecked hdecoded⟩⟩
  exact recorded_of_noLeak haddr (perfLayout_of_handleInputs haddr hsetup hmode hdistinct hinputs)

theorem noLeak_iff_sole : ∃ t', (soleTransaction .PERF_MODE).handleInputs
      [soleOutput 2 (by decide)] = .ok t' ∧ NoLeak solePlatform t' := by
  obtain ⟨t', hinputs, -⟩ := exists_of_test (e := (soleTransaction .PERF_MODE).handleInputs
    [soleOutput 2 (by decide)]) (fun _ => true) (by decide +kernel)
  exact ⟨t', hinputs, (noLeak_iff solePlatform _ t' _ rfl rfl (by decide) hinputs).1 (by decide)⟩

def noRepetition : TestHarnessArgs := { soleOutput 2 (by decide) with repetition := 0 }

/-- What the buffers held can reach the user. -/
theorem not_noLeak : ¬ ∀ (p : Platform) (t t' : Transaction) (args : List TestHarnessArgs),
    t.setup = p.toSetup → t.mode = .PERF_MODE → DistinctChannels args →
    t.handleInputs args = .ok t' → NoLeak p t' := by
  intro hall
  obtain ⟨t', hinputs, -⟩ := exists_of_test (e := (soleTransaction .PERF_MODE).handleInputs
    [noRepetition]) (fun _ => true) (by decide +kernel)
  have hdistinct : DistinctChannels [noRepetition] := by decide
  have hlayout :=
    perfLayout_of_handleInputs (p := solePlatform) (by decide) rfl rfl hdistinct hinputs
  have hrecorded := recorded_of_noLeak (by decide) hlayout
    (hall solePlatform _ t' _ rfl rfl hdistinct hinputs)
  exact hrecorded noRepetition (List.mem_singleton_self _) (by decide) (by decide) (by decide)

end AieTestHarness
