import AieTestHarness.Proof.FuncReceive
import AieTestHarness.Proof.PerfReceive

/-!
# What `isResultValid` promises

A transaction that ends is valid when `handleInputs` has left its flag set, and `handleInputs`
clears the flag for an argument to the AIE that does not fit into its URAM buffer. It does not look
at the arguments from the AIE: of one that does not fit the host copies the first part only, and one
with `2 ^ 32` repetitions or more gets the number of repetitions modulo `2 ^ 32`.
-/

namespace AieTestHarness

open Slices Loops Transaction

/-- A run of the PL for `t` in which all its processes have returned: what each channel sent, what
the AIE produced on each channel, and the memory it left. -/
inductive PlRun (p : Platform) (burst_len : Nat) (t : Transaction) :
    (Nat → List Beat) → (Nat → List Beat) → List UInt8 → Prop where
  | func {produced : Nat → List Beat} {axiTo axiFrom : Nat → Nat} {axi_pos : ∀ c, 0 < axiFrom c}
      {s : TxState} {r : RxState} (hmode : t.mode = .FUNC_MODE)
      (hto : (transmitOf p burst_len t axiTo).lts.Run (transmitOf p burst_len t axiTo).init s)
      (hload : s.load.pc = .done) (hfeed : ∀ c < p.num_channels, s.feed c = .done)
      (hfrom : (receiveOf p burst_len t produced axiFrom axi_pos).lts.Run
        (receiveOf p burst_len t produced axiFrom axi_pos).init r)
      (hcomplete : (receiveOf p burst_len t produced axiFrom axi_pos).Complete r) :
      PlRun p burst_len t s.sent produced r.io.mem
  | perf {produced toUram fromUram buffs : Nat → List Beat} {mem : List UInt8}
      (hmode : t.mode = .PERF_MODE) (hto : ∀ c < p.num_channels, (toUram c).length = p.depth)
      (hfrom : PerfReceived p (loadCfg p t.cfg_ptr) fromUram produced buffs)
      (hmem : mem.length = t.from_aie_ptr.length) :
      PlRun p burst_len t
        (fun c => feedPerf p ((loadCfg p t.cfg_ptr).to_aie_ch c)
          (loadBuff p ((loadCfg p t.cfg_ptr).to_aie_ch c) t.to_aie_ptr (toUram c)))
        produced (storeBuffs p (loadCfg p t.cfg_ptr) buffs mem)

/-- What the AIE produces: words of the stream's width, on each listed channel as many as the
argument asks for in all its repetitions. -/
structure Produces (p : Platform) (args : List TestHarnessArgs) (produced : Nat → List Beat) :
    Prop where
  sized : ∀ c, Sized p (produced c)
  length_eq : ∀ a ∈ args, a.IsFrom p.toSetup →
    (produced a.fromChn).length = a.repetition.toNat * (a.size / p.word_size)

def Transaction.finished (t : Transaction) (mem : List UInt8) (perf_ptr : List Nat) : Transaction :=
  { t with status := .TRANSACTION_DONE, from_aie_ptr := mem, perf_ptr }

def lastRepetition (p : Platform) (a : TestHarnessArgs) (produced : List Beat) : List Beat :=
  slice ((a.repetition.toNat - 1) * (a.size / p.word_size)) (a.size / p.word_size) produced

structure ResultSound (p : Platform) (args : List TestHarnessArgs) (sent produced : Nat → List Beat)
    (t : Transaction) : Prop where
  sent_user : ∀ a ∈ args, a.IsTo p.toSetup → ∀ b ∈ sent a.toChn, b ∈ a.beats p
  unlisted : ∀ c < p.num_channels, (∀ a ∈ args, a.IsTo p.toSetup → a.toChn ≠ c) → sent c = []
  outputs : List.Forall₂ (fun a a' => a.IsFrom p.toSetup →
    a'.data.bytes.take a.size = (lastRepetition p a (produced a.fromChn)).flatten) args t.args_rec

def ValidSound (p : Platform) (burst_len : Nat) (t : Transaction) (args : List TestHarnessArgs) :
    Prop :=
  ∀ sent produced mem perf_ptr t', PlRun p burst_len t sent produced mem
    → Produces p args produced →
    perf_ptr.length = p.num_channels * 4 → (t.finished mem perf_ptr).handleOutputs = .ok t' →
    t'.isResultValid = true → ResultSound p args sent produced t'

section Func

variable {p : Platform} {burst_len : Nat} {t t' : Transaction} {args : List TestHarnessArgs}

theorem lastRepetition_of_one {a : TestHarnessArgs} {bs : List Beat} (hrep : a.repetition.toNat = 1)
    (hlen : bs.length = a.size / p.word_size) : lastRepetition p a bs = bs := by
  rw [lastRepetition, hrep, Nat.sub_self, Nat.zero_mul, ← hlen, slice_self]

/-- In functional mode a run that ends is a correct one. -/
theorem validSound_func (hB : 1 ≤ burst_len) (hB' : burst_len ≤ 128) (hmode : t'.mode = .FUNC_MODE)
    (hbuffer : ∀ a ∈ args, a.IsFrom p.toSetup → a.size ≤ a.data.bytes.length)
    (hto : FuncToLayout p t' args) (hfrom : FuncFromLayout p t' args) :
    ValidSound p burst_len t' args := by
  intro sent produced mem perf_ptr t'' hrun hproduced hperf hout _
  cases hrun with
  | perf hperfMode => rw [hmode] at hperfMode; cases hperfMode
  | @func _ axiTo axiFrom axi_pos s r _ htx hload hfeed hrx hcomplete =>
      have hbeats : Delivers p args produced := by
        refine ⟨hproduced.sized, fun a ha hafrom => ?_⟩
        rw [hproduced.length_eq a ha hafrom, (hto.checked a ha).2, Nat.one_mul]
      have hfits : (receiveOf p burst_len t' produced axiFrom axi_pos).Fits :=
        receiveOf_fits hto hfrom hB hB' hbuffer hbeats
      have htxOk := transmitOk_of_inv hto (Transmit.inv_of_run
        (transmitOf_small burst_len axiTo hto) (Transmit.noWrap_of_done htx hload))
      have hrxOk := receiveOk_of_inv hto hfrom hbuffer hbeats hfits
        (Receive.inv_of_run hfits (Receive.inv_init _)
          (Receive.noWrap_of_done hfits hrx hcomplete.1))
      obtain ⟨t₀, hout₀, hall⟩ := hrxOk.outputs hcomplete.1 perf_ptr hperf
      obtain rfl : _ = t'' :=
        Except.ok.inj ((handleOutputs_status .TRANSACTION_DONE hout₀).symm.trans hout)
      refine ⟨?_, htxOk.unlisted, ?_⟩
      · intro a ha hato b hb
        rwa [htxOk.sent_eq a ha hato hload (hfeed _ hato.toChn_lt)] at hb
      · refine forall₂_imp_of_mem hall fun a ha a' hcopied hafrom => ?_
        rw [lastRepetition_of_one (hto.checked a ha).2 (hbeats.length_eq a ha hafrom)]
        exact hcopied hafrom

end Func

section Perf

variable {p : Platform} {burst_len : Nat} {t t' : Transaction} {args : List TestHarnessArgs}
  {a : TestHarnessArgs}

theorem exists_feedBeat_of_mem {ch : Channel} {buff : List Beat} {b : Beat}
    (hb : b ∈ feedPerf p ch buff) : ∃ i < ch.numFrames, b = feedBeat p buff i := by
  rw [feedPerf, feedReps_eq] at hb
  obtain ⟨round, hround, hb⟩ := List.mem_flatten.mp hb
  rw [List.eq_of_mem_replicate hround] at hb
  obtain ⟨i, hi, rfl⟩ := List.mem_map.mp hb
  exact ⟨i, List.mem_range.mp hi, rfl⟩

/-- A channel to the AIE whose data fits sends nothing but that data. -/
theorem sent_user_of_fits (haddr : Addressable p) (hlayout : PerfLayout p t' args) (ha : a ∈ args)
    (hato : a.IsTo p.toSetup) (hsize : a.size ≤ p.bufBytes) {buff : List Beat}
    (hbuff : buff.length = p.depth) {b : Beat}
    (hb : b ∈ feedPerf p (perfChannel p a a.toChn)
      (loadBuff p (perfChannel p a a.toChn) t'.to_aie_ptr buff)) : b ∈ a.beats p := by
  have hfit : a.size / p.word_size ≤ p.depth := by
    have := Nat.div_le_div_right (c := p.word_size) hsize
    rwa [Platform.bufBytes, Nat.mul_div_cancel_left _ p.word_pos] at this
  have hdepth : p.depth ≤ p.bufBytes := Nat.le_mul_of_pos_left _ p.word_pos
  have hlt := bufBytes_lt haddr hato.toChn_lt
  have hframes : (perfChannel p a a.toChn).numFrames = a.size / p.word_size := u32_of_lt (by omega)
  obtain ⟨i, hi, rfl⟩ := exists_feedBeat_of_mem hb
  rw [hframes] at hi
  rw [feedBeat_loadBuff haddr hlayout ha hato hbuff (by omega) hi, Nat.mod_eq_of_lt (by omega),
    Nat.div_eq_of_lt (by omega), passMask_zero,
    ← length_frame (k := i) hlayout ha hato (by omega), xorBeat_zero]
  exact List.mem_map_of_mem (List.mem_range.mpr hi)

/-- In performance mode a valid run is sound when all data from the AIE fits. -/
theorem validSound_perf (haddr : Addressable p) (hlayout : PerfLayout p t' args)
    (hrep : ∀ a ∈ args, 1 ≤ a.repetition.toNat)
    (hbuffer : ∀ a ∈ args, a.IsFrom p.toSetup → a.size ≤ a.data.bytes.length)
    (hcond : (∃ a ∈ args, a.IsTo p.toSetup ∧ p.bufBytes < a.size)
      ∨ ∀ a ∈ args, a.IsFrom p.toSetup → 0 < a.size →
        a.size ≤ p.bufBytes ∧ a.repetition.toNat < 2 ^ 32) : ValidSound p burst_len t' args := by
  intro sent produced mem perf_ptr t'' hrun hproduced hperf hout hvalid
  cases hrun with
  | func hfuncMode => rw [hlayout.mode_eq] at hfuncMode; cases hfuncMode
  | @perf _ toUram fromUram buffs mem _ htoUram hreceived hmem =>
      obtain ⟨t₀, hout₀, -, hvalid₀, hall⟩ := perfCopied_of_stored haddr hlayout hbuffer
        (fun c hc => (hreceived.buffs_ok hc).1) (fun c hc => (hreceived.buffs_ok hc).2) hmem hperf
      obtain rfl : _ = t'' :=
        Except.ok.inj ((handleOutputs_status .TRANSACTION_DONE hout₀).symm.trans hout)
      have hfits := hlayout.valid_iff.mp (hvalid₀ ▸ hvalid : t'.result_valid = true)
      have hfrom : ∀ a ∈ args, a.IsFrom p.toSetup → 0 < a.size →
          a.size ≤ p.bufBytes ∧ a.repetition.toNat < 2 ^ 32 := by
        refine hcond.resolve_left ?_
        rintro ⟨a, ha, hato, hbig⟩
        have := hfits a ha hato
        omega
      refine ⟨?_, ?_, ?_⟩
      · intro a ha hato b hb
        rw [show (loadCfg p t'.cfg_ptr).to_aie_ch a.toChn = perfChannel p a a.toChn from
          (hlayout.listed_to a ha hato).1] at hb
        exact sent_user_of_fits haddr hlayout ha hato (hfits a ha hato) (htoUram _ hato.toChn_lt) hb
      · intro c hc hnone
        rw [show (loadCfg p t'.cfg_ptr).to_aie_ch c = ⟨.PERF_MODE, 0, 0, 0, 0⟩ from
          hlayout.unlisted_to c hc hnone]
        rfl
      · refine forall₂_imp_of_mem hall fun a ha a' hcopied hafrom => ?_
        rcases Nat.eq_zero_or_pos a.size with hzero | hpos
        · rw [lastRepetition, hzero, Nat.zero_div, slice_zero_len, List.take_zero, List.flatten_nil]
        · obtain ⟨hsize, hrep'⟩ := hfrom a ha hafrom hpos
          exact last_repetition hreceived (perfDecoded haddr hlayout ha hafrom hrep' hsize) hafrom
            (hrep a ha) hsize (hproduced.length_eq a ha hafrom) (hcopied hafrom)

/-! ### Runs with results that are valid and wrong -/

/-- How much the AIE produces on each channel. -/
theorem exists_counts (hdistinct : DistinctChannels args) : ∃ n : Nat → Nat,
    ∀ a ∈ args, a.IsFrom p.toSetup → a.repetition.toNat * (a.size / p.word_size) = n a.fromChn := by
  have hchn : ∀ c, ∃ n, ∀ a ∈ args, a.IsFrom p.toSetup → a.fromChn = c →
      a.repetition.toNat * (a.size / p.word_size) = n := by
    intro c
    by_cases h : ∃ a ∈ args, a.IsFrom p.toSetup ∧ a.fromChn = c
    · obtain ⟨a, ha, hafrom, rfl⟩ := h
      refine ⟨a.repetition.toNat * (a.size / p.word_size), fun b hb hbfrom heq => ?_⟩
      have hidx : b.idx = a.idx := by
        by_contra hne
        exact TestHarnessArgs.fromChn_ne hbfrom hafrom hne heq
      rw [List.inj_on_of_nodup_map hdistinct hb ha hidx]
    · exact ⟨0, fun a ha hafrom heq => absurd ⟨a, ha, hafrom, heq⟩ h⟩
  choose n hn using hchn
  exact ⟨n, fun a ha hafrom => hn _ a ha hafrom rfl⟩

/-- `get` returns where the AIE produces what the arguments ask for. -/
theorem exists_returned (hlayout : PerfLayout p t' args) {strm : Nat → List Beat}
    (hproduced : Produces p args strm) (uram : List Beat) (c : Nat) (hc : c < p.num_channels) :
    ∃ buff rest, getPerf p ((loadCfg p t'.cfg_ptr).from_aie_ch c) uram (strm c)
      = some (buff, rest) := by
  have hle : ((loadCfg p t'.cfg_ptr).from_aie_ch c).numRep
      * ((loadCfg p t'.cfg_ptr).from_aie_ch c).numFrames ≤ (strm c).length := by
    by_cases h : ∀ a ∈ args, a.IsFrom p.toSetup → a.fromChn ≠ c
    · rw [show (loadCfg p t'.cfg_ptr).from_aie_ch c = ⟨.PERF_MODE, 0, 0, 0, 0⟩ from
        hlayout.unlisted_from c hc h]
      exact Nat.zero_le _
    · simp only [not_forall, not_not] at h
      obtain ⟨a, ha, hafrom, rfl⟩ := h
      rw [show (loadCfg p t'.cfg_ptr).from_aie_ch a.fromChn = perfChannel p a a.fromChn from
        (hlayout.listed_from a ha hafrom).1, hproduced.length_eq a ha hafrom]
      exact Nat.mul_le_mul (u32_le _) (u32_le _)
  obtain ⟨buff, hget⟩ := getReps_returns p _ uram _ hle
  exact ⟨buff, _, hget⟩

/-- A run in which the AIE produces `strm`, from cleared buffers, and its outputs. -/
theorem exists_perfRun (burst_len : Nat) (haddr : Addressable p) (hlayout : PerfLayout p t' args)
    (hbuffer : ∀ a ∈ args, a.IsFrom p.toSetup → a.size ≤ a.data.bytes.length)
    (hvalid : ∀ a ∈ args, a.IsTo p.toSetup → a.size ≤ p.bufBytes) {strm : Nat → List Beat}
    (hproduced : Produces p args strm) : ∃ sent mem perf_ptr t'' buffs,
      PlRun p burst_len t' sent strm mem ∧ perf_ptr.length = p.num_channels * 4
      ∧ (t'.finished mem perf_ptr).handleOutputs = .ok t'' ∧ t''.isResultValid = true
      ∧ PerfReceived p (loadCfg p t'.cfg_ptr)
        (fun _ => List.replicate p.depth (List.replicate p.word_size 0)) strm buffs
      ∧ List.Forall₂ (fun a a' => a.IsFrom p.toSetup → PerfCopied p buffs a a') args
      t''.args_rec := by
  have hgot : ∀ c, ∃ buff, c < p.num_channels → ∃ rest,
      getPerf p ((loadCfg p t'.cfg_ptr).from_aie_ch c)
        (List.replicate p.depth (List.replicate p.word_size 0)) (strm c) = some (buff, rest) := by
    intro c
    by_cases hc : c < p.num_channels
    · obtain ⟨buff, rest, hget⟩ := exists_returned hlayout hproduced
        (List.replicate p.depth (List.replicate p.word_size 0)) c hc
      exact ⟨buff, fun _ => ⟨rest, hget⟩⟩
    · exact ⟨[], fun h => absurd h hc⟩
  choose buffs hbuffs using hgot
  have hreceived : PerfReceived p (loadCfg p t'.cfg_ptr)
      (fun _ => List.replicate p.depth (List.replicate p.word_size 0)) strm buffs :=
    ⟨fun _ _ => List.length_replicate, fun _ _ => sized_replicate List.length_replicate,
      fun c _ => hproduced.sized c, hbuffs⟩
  obtain ⟨t₀, hout₀, -, hvalid₀, hall⟩ := perfCopied_of_stored haddr hlayout hbuffer
    (fun c hc => (hreceived.buffs_ok hc).1) (fun c hc => (hreceived.buffs_ok hc).2)
    (rfl : t'.from_aie_ptr.length = _) (hlayout.perf_length : t'.perf_ptr.length = _)
  have htoUram : ∀ c < p.num_channels, ((fun _ => List.replicate p.depth []) c : List Beat).length
      = p.depth := fun _ _ => List.length_replicate
  exact ⟨_, _, t'.perf_ptr, _, buffs, .perf hlayout.mode_eq htoUram hreceived rfl,
    hlayout.perf_length, handleOutputs_status .TRANSACTION_DONE hout₀,
    hvalid₀.trans (hlayout.valid_iff.mpr hvalid), hreceived, hall⟩

theorem exists_of_forall₂ {α β : Type} {R S : α → β → Prop} {l : List α} {l' : List β}
    (hR : List.Forall₂ R l l') (hS : List.Forall₂ S l l') {x : α} (hx : x ∈ l) :
    ∃ y, R x y ∧ S x y := by
  induction hR with
  | nil => cases hx
  | @cons a b _ _ hab _ ih =>
      cases hS with
      | cons hab' hS =>
          rcases List.mem_cons.mp hx with rfl | hrest
          · exact ⟨b, hab, hab'⟩
          · exact ih hS hrest

/-- What the AIE produces in a run that goes wrong for `a`: `bs` there, nothing but zeros
elsewhere. -/
def produceFor (p : Platform) (n : Nat → Nat) (a : TestHarnessArgs) (bs : List Beat) :
    Nat → List Beat :=
  Function.update (fun c => List.replicate (n c) (List.replicate p.word_size 0)) a.fromChn bs

theorem produces_produceFor {n : Nat → Nat} {bs : List Beat}
    (hn : ∀ b ∈ args, b.IsFrom p.toSetup →
      b.repetition.toNat * (b.size / p.word_size) = n b.fromChn)
    (hsized : Sized p bs) (hlen : bs.length = n a.fromChn) :
    Produces p args (produceFor p n a bs) := by
  constructor
  · intro c
    by_cases heq : c = a.fromChn
    · subst heq
      rwa [produceFor, Function.update_self]
    · rw [produceFor, Function.update_of_ne heq]
      exact sized_replicate List.length_replicate
  · intro b hb hbfrom
    by_cases heq : b.fromChn = a.fromChn
    · rw [hn b hb hbfrom, heq, produceFor, Function.update_self, hlen]
    · rw [hn b hb hbfrom, produceFor, Function.update_of_ne heq, List.length_replicate]

/-- An argument from the AIE that does not fit: the end of the user's buffer is not written. -/
theorem not_validSound_of_big (haddr : Addressable p) (hlayout : PerfLayout p t' args)
    (hdistinct : DistinctChannels args) (hrep : ∀ a ∈ args, 1 ≤ a.repetition.toNat)
    (hbuffer : ∀ a ∈ args, a.IsFrom p.toSetup → a.size ≤ a.data.bytes.length)
    (hvalid : ∀ a ∈ args, a.IsTo p.toSetup → a.size ≤ p.bufBytes) (ha : a ∈ args)
    (hafrom : a.IsFrom p.toSetup) (hbig : p.bufBytes < a.size) :
    ¬ ValidSound p burst_len t' args := by
  intro hall
  obtain ⟨n, hn⟩ := exists_counts (p := p) hdistinct
  have hlt : p.bufBytes < a.data.bytes.length := Nat.lt_of_lt_of_le hbig (hbuffer a ha hafrom)
  -- every byte the AIE produces differs from the first one the copy leaves alone
  have hproduced : Produces p args (produceFor p n a (List.replicate (n a.fromChn)
      (List.replicate p.word_size (a.data.bytes[p.bufBytes] + 1)))) :=
    produces_produceFor hn (sized_replicate List.length_replicate) List.length_replicate
  obtain ⟨sent, mem, perf_ptr, t'', buffs, hrun, hperf, hout, hok, -, hcopied⟩ :=
    exists_perfRun burst_len haddr hlayout hbuffer hvalid hproduced
  have hsound := hall _ _ _ _ _ hrun hproduced hperf hout hok
  obtain ⟨a', hlast, hcopy⟩ := exists_of_forall₂ hsound.outputs hcopied ha
  have hlast := hlast hafrom
  have hcopy := (hcopy hafrom).beyond
  have hrounds : (a.repetition.toNat - 1) * (a.size / p.word_size) + a.size / p.word_size
      ≤ n a.fromChn := by
    rw [← hn a ha hafrom, ← Nat.succ_mul]
    exact Nat.mul_le_mul_right _ (by have := hrep a ha; omega)
  have hsize : a.size / p.word_size * p.word_size = a.size :=
    Nat.div_mul_cancel (Nat.dvd_of_mod_eq_zero (hlayout.checked a ha).2)
  rw [produceFor, Function.update_self, lastRepetition, slice_replicate hrounds,
    List.flatten_replicate_replicate, hsize] at hlast
  rw [perfBytes, Nat.min_eq_right (by omega)] at hcopy
  have hnew : a'.data.bytes[p.bufBytes]? = some (a.data.bytes[p.bufBytes] + 1) := by
    have := congrArg (·[p.bufBytes]?) hlast
    simpa [hbig] using this
  have hold : a'.data.bytes[p.bufBytes]? = some a.data.bytes[p.bufBytes] := by
    have := congrArg (·[0]?) hcopy
    simpa [hlt] using this
  rw [hold, Option.some.injEq] at hnew
  simp at hnew

/-- An argument from the AIE with more repetitions than the PL counts: the last ones are not
read. -/
theorem not_validSound_of_rep (haddr : Addressable p) (hlayout : PerfLayout p t' args)
    (hdistinct : DistinctChannels args)
    (hbuffer : ∀ a ∈ args, a.IsFrom p.toSetup → a.size ≤ a.data.bytes.length)
    (hvalid : ∀ a ∈ args, a.IsTo p.toSetup → a.size ≤ p.bufBytes) (ha : a ∈ args)
    (hafrom : a.IsFrom p.toSetup) (hpos : 0 < a.size) (hsize : a.size ≤ p.bufBytes)
    (hmany : 2 ^ 32 ≤ a.repetition.toNat) : ¬ ValidSound p burst_len t' args := by
  intro hall
  obtain ⟨n, hn⟩ := exists_counts (p := p) hdistinct
  have hscale : a.size / p.word_size * p.word_size = a.size :=
    Nat.div_mul_cancel (Nat.dvd_of_mod_eq_zero (hlayout.checked a ha).2)
  have hfit : a.size / p.word_size ≤ p.depth := by
    have := Nat.div_le_div_right (c := p.word_size) hsize
    rwa [Platform.bufBytes, Nat.mul_div_cancel_left _ p.word_pos] at this
  have hdepth : p.depth ≤ p.bufBytes := Nat.le_mul_of_pos_left _ p.word_pos
  have hlt := bufBytes_lt haddr hafrom.fromChn_lt
  have hread : u32 a.repetition.toNat < 2 ^ 32 := u32_lt _
  -- zeros as long as the PL reads, ones after that
  obtain ⟨bs, hbs⟩ : ∃ bs, bs = List.replicate (u32 a.repetition.toNat * (a.size / p.word_size))
        (List.replicate p.word_size (0 : UInt8))
      ++ List.replicate ((a.repetition.toNat - u32 a.repetition.toNat) * (a.size / p.word_size))
        (List.replicate p.word_size (1 : UInt8)) := ⟨_, rfl⟩
  have hsized : Sized p bs := by
    intro b hb
    rw [hbs, List.mem_append] at hb
    rcases hb with hb | hb <;> rw [List.eq_of_mem_replicate hb, List.length_replicate]
  have hlen : bs.length = n a.fromChn := by
    rw [hbs, List.length_append, List.length_replicate, List.length_replicate, ← Nat.add_mul,
      ← hn a ha hafrom, Nat.add_sub_cancel' (u32_le _)]
  have hproduced := produces_produceFor hn hsized hlen
  obtain ⟨sent, mem, perf_ptr, t'', buffs, hrun, hperf, hout, hok, hreceived, hcopied⟩ :=
    exists_perfRun burst_len haddr hlayout hbuffer hvalid hproduced
  have hsound := hall _ _ _ _ _ hrun hproduced hperf hout hok
  obtain ⟨a', hlast, hcopy⟩ := exists_of_forall₂ hsound.outputs hcopied ha
  have hlast := hlast hafrom
  have hcopy := (hcopy hafrom).kept (by omega)
  rw [perfBytes, Nat.min_eq_left hsize, Nat.min_eq_left hfit] at hcopy
  have hones : lastRepetition p a bs
      = List.replicate (a.size / p.word_size) (List.replicate p.word_size 1) := by
    have hbefore : u32 a.repetition.toNat * (a.size / p.word_size)
        ≤ (a.repetition.toNat - 1) * (a.size / p.word_size) := Nat.mul_le_mul_right _ (by omega)
    rw [lastRepetition, hbs, slice_append_right (by rwa [List.length_replicate]),
      List.length_replicate, ← Nat.sub_mul]
    refine slice_replicate ?_
    rw [← Nat.succ_mul]
    exact Nat.mul_le_mul_right _ (by omega)
  have hzeros : ∀ b ∈ buffs a.fromChn, b = List.replicate p.word_size 0 := by
    obtain ⟨rest, hget⟩ := hreceived.returned a.fromChn hafrom.fromChn_lt
    rw [show (loadCfg p t'.cfg_ptr).from_aie_ch a.fromChn = perfChannel p a a.fromChn from
      (hlayout.listed_from a ha hafrom).1] at hget
    intro b hb
    rcases getReps_mem hget b hb with hold | hnew
    · exact List.eq_of_mem_replicate hold
    · rw [show (perfChannel p a a.fromChn).numFrames = a.size / p.word_size from
        u32_of_lt (by omega), produceFor, Function.update_self, hbs,
        List.take_left' (by rw [List.length_replicate]; rfl)] at hnew
      exact List.eq_of_mem_replicate hnew
  rw [produceFor, Function.update_self, hones, List.flatten_replicate_replicate, hscale,
    hcopy] at hlast
  have hone : (1 : UInt8) ∈ ((buffs a.fromChn).take (a.size / p.word_size)).flatten := by
    rw [hlast]
    exact List.mem_replicate.mpr ⟨by omega, rfl⟩
  obtain ⟨b, hb, hone⟩ := List.mem_flatten.mp hone
  rw [hzeros b (List.mem_of_mem_take hb)] at hone
  exact absurd (List.eq_of_mem_replicate hone) (by decide)

end Perf

/-- The flag keeps its promise exactly when nothing the host or the PL cuts off comes from the
AIE. -/
theorem isResultValid_sound_iff (p : Platform) (burst_len : Nat) (t t' : Transaction)
    (args : List TestHarnessArgs) (hB : 1 ≤ burst_len) (hB' : burst_len ≤ 128)
    (haddr : t.mode = .PERF_MODE → Addressable p) (hsetup : t.setup = p.toSetup)
    (hdistinct : DistinctChannels args) (hrep : ∀ a ∈ args, 1 ≤ a.repetition.toNat)
    (hbuffer : ∀ a ∈ args, a.IsFrom p.toSetup → a.size ≤ a.data.bytes.length)
    (hinputs : t.handleInputs args = .ok t') (hlimit : t'.getMemoryUsage ≤ 2 ^ 30) :
    ValidSound p burst_len t' args ↔
      t.mode = .FUNC_MODE ∨ (∃ a ∈ args, a.IsTo p.toSetup ∧ p.bufBytes < a.size)
        ∨ ∀ a ∈ args, a.IsFrom p.toSetup → 0 < a.size →
          a.size ≤ p.bufBytes ∧ a.repetition.toNat < 2 ^ 32 := by
  cases hmode : t.mode with
  | FUNC_MODE =>
      have hto := funcToLayout_of_handleInputs hsetup hmode hdistinct hinputs hlimit
      have hfrom := funcFromLayout_of_handleInputs hsetup hmode hdistinct hbuffer hinputs hlimit
      exact iff_of_true (validSound_func hB hB' hto.mode_eq hbuffer hto hfrom) (Or.inl rfl)
  | PERF_MODE =>
      have haddr := haddr hmode
      have hlayout := perfLayout_of_handleInputs haddr hsetup hmode hdistinct hinputs
      constructor
      · intro hsound
        by_contra hnot
        simp only [reduceCtorEq, false_or, not_or, not_exists, not_and, not_lt, not_forall] at hnot
        obtain ⟨hvalid, a, ha, hafrom, hpos, hbad⟩ := hnot
        by_cases hsize : a.size ≤ p.bufBytes
        · exact not_validSound_of_rep haddr hlayout hdistinct hbuffer hvalid ha hafrom hpos hsize
            (hbad hsize) hsound
        · exact not_validSound_of_big haddr hlayout hdistinct hrep hbuffer hvalid ha hafrom
            (Nat.lt_of_not_le hsize) hsound
      · intro hcond
        exact validSound_perf haddr hlayout hrep hbuffer (hcond.resolve_left (by simp))

theorem isResultValid_sound_sole : ∃ t', (soleTransaction .PERF_MODE).handleInputs
      [soleOutput 16 (by decide)] = .ok t' ∧
    ValidSound solePlatform 128 t' [soleOutput 16 (by decide)] := by
  obtain ⟨t', hinputs, hlimit⟩ := exists_of_test (e := (soleTransaction .PERF_MODE).handleInputs
    [soleOutput 16 (by decide)]) (fun t' : Transaction => decide (t'.getMemoryUsage ≤ 2 ^ 30))
    (by decide +kernel)
  exact ⟨t', hinputs, (isResultValid_sound_iff solePlatform 128 _ t' _ (by decide) (by decide)
    (fun _ => by decide) rfl (by decide) (by decide) (by decide) hinputs
    (of_decide_eq_true hlimit)).mpr (Or.inr (Or.inr (by decide)))⟩

/-- A valid result need not be sound: 17 words from a channel that buffers 16. -/
theorem not_isResultValid_sound : ¬ ∀ (p : Platform) (burst_len : Nat) (t t' : Transaction)
    (args : List TestHarnessArgs), 1 ≤ burst_len → burst_len ≤ 128 →
    (t.mode = .PERF_MODE → Addressable p) → t.setup = p.toSetup → DistinctChannels args →
    (∀ a ∈ args, 1 ≤ a.repetition.toNat) →
    (∀ a ∈ args, a.IsFrom p.toSetup → a.size ≤ a.data.bytes.length) →
    t.handleInputs args = .ok t' → t'.getMemoryUsage ≤ 2 ^ 30 → ValidSound p burst_len t' args := by
  intro hall
  obtain ⟨t', hinputs, hlimit⟩ := exists_of_test (e := (soleTransaction .PERF_MODE).handleInputs
    [soleOutput 17 (by decide)]) (fun t' : Transaction => decide (t'.getMemoryUsage ≤ 2 ^ 30))
    (by decide +kernel)
  have haddr : Addressable solePlatform := by decide
  have hdistinct : DistinctChannels [soleOutput 17 (by decide)] := by decide
  have hbuffer : ∀ a ∈ [soleOutput 17 (by decide)], a.IsFrom solePlatform.toSetup →
      a.size ≤ a.data.bytes.length := by decide
  have hlayout := perfLayout_of_handleInputs (p := solePlatform) haddr rfl rfl hdistinct hinputs
  refine not_validSound_of_big haddr hlayout hdistinct (by decide) hbuffer (by decide)
    (List.mem_singleton_self _) (by decide) (by decide)
    (hall solePlatform 128 _ t' _ (by decide) (by decide) (fun _ => haddr) rfl hdistinct (by decide)
      hbuffer hinputs (of_decide_eq_true hlimit))

end AieTestHarness
