import AieTestHarness.Proof.Legacy
import AieTestHarness.Proof.Remote

/-!
# A card in the machine

The legacy manager runs its transactions on the card itself, one after the other. Where no wait
times out, what is done holds what the graph makes of the user's data, so that it makes no
difference to the user where the card is.
-/

namespace AieTestHarness

open Transaction

namespace HarnessMgr

variable (d : Card) (σ : Story) {m m' : HarnessMgr} {a : Addr} {t t' t₁ : Transaction} {r : Nat}

/-- The device is the card and holds what a call asks for, a call is what the story says, and no
wait times out. -/
structure Staged (l : HarnessLabel) (m : HarnessMgr) : Prop where
  asked : ∀ umode args mode, l = .runTestHarness umode args →
    TestMode.ofNat? umode.toNat = some mode → ¬ m.Running → σ.asked m.created = args
      ∧ Posed d.p (.new 0 mode d.p.num_channels d.p.word_size d.p.depth d.p.memWidth 0) args
      ∧ ∀ t, (Transaction.new 0 mode d.p.num_channels d.p.word_size d.p.depth d.p.memWidth
        0).handleInputs args = .ok t →
        t.getMemoryUsage ≤ 2 ^ 30 ∧ σ.given m.fastObj.started = t.buffers
  completed : ∀ r, l = .complete r → d.Runs (σ.given r) (m.fastObj.mem r)
  patient : l ≠ .waitForRes false

/-- The run is one of the transaction, as `handleInputs` has made it. -/
structure Carried (f : FastXM) (a : Addr) (t t₁ : Transaction) (r : Nat) : Prop where
  loaded : Loaded d σ a t₁
  bears : Bears t t₁
  holds : f.Holds a t r
  lt : r < f.started
  given_eq : σ.given r = t₁.buffers

structure Local (m : HarnessMgr) : Prop where
  setup_eq : m.setup = d.p.toSetup
  device : m.fastObj.OfCard d σ.given
  idle : ¬ m.Running → m.fastObj.Empty
  running : ∀ a t, m.trans = some (a, t) → t.status = .TRANSACTION_RUNNING →
    ∃ t₁ r, Carried d σ m.fastObj a t t₁ r
  done : ∀ a t, m.trans = some (a, t) → t.status = .TRANSACTION_DONE → Handed d σ a t

variable {d σ}

theorem Carried.device {f f' : FastXM} (h : Carried d σ f a t t₁ r) (hbo : f'.bo_hdl = f.bo_hdl)
    (hsrc : f'.bo_src_ptr = f.bo_src_ptr) (hmem : ∀ r, (f'.mem r).sizes = (f.mem r).sizes)
    (hstarted : f'.started = f.started) : Carried d σ f' a t t₁ r where
  loaded := h.loaded
  bears := h.bears
  holds := ⟨hbo.trans h.holds.1, hsrc.trans h.holds.2, (hmem r).trans h.holds.3⟩
  lt := by rw [hstarted]; exact h.lt
  given_eq := h.given_eq

theorem Local.device_step {f : FastXM} (h : m.Local d σ) (hf : f.OfCard d σ.given)
    (hbo : f.bo_hdl = m.fastObj.bo_hdl) (hsrc : f.bo_src_ptr = m.fastObj.bo_src_ptr)
    (hmem : ∀ r, (f.mem r).sizes = (m.fastObj.mem r).sizes)
    (hstarted : f.started = m.fastObj.started) :
    ({ m with fastObj := f } : HarnessMgr).Local d σ where
  setup_eq := h.setup_eq
  device := hf
  idle hrunning := ⟨hbo.trans (h.idle hrunning).1, hsrc.trans (h.idle hrunning).2⟩
  running a t htrans hstatus := by
    obtain ⟨t₁, r, hcarried⟩ := h.running a t htrans hstatus
    exact ⟨t₁, r, hcarried.device hbo hsrc hmem hstarted⟩
  done := h.done

theorem Local.runTestHarness {umode : UInt8} {args : List TestHarnessArgs} (h : m.Local d σ)
    (hstaged : Staged d σ (.runTestHarness umode args) m) :
    (m.runTestHarness umode args).Local d σ := by
  unfold HarnessMgr.runTestHarness
  split
  · exact h
  · next mode hmode =>
    split
    · exact h
    · next hrunning =>
      obtain ⟨hargs, hposed, hfits⟩ := hstaged.asked umode args mode rfl hmode hrunning
      have hempty := h.idle hrunning
      rw [h.setup_eq]
      dsimp only
      split
      · refine ⟨rfl, h.device, fun _ => hempty, ?_, ?_⟩
        · rintro _ _ ⟨⟩ hstatus
          cases hstatus
        · rintro _ _ ⟨⟩ hstatus
          cases hstatus
      · next t hinputs =>
        obtain ⟨hlimit, hgiven⟩ := hfits t hinputs
        rw [← hargs] at hinputs hposed
        have hholds := FastXM.runPL_holds hempty m.created t
        refine ⟨rfl, h.device.runPL hgiven, fun hnot => ?_, ?_, ?_⟩
        · exact absurd ⟨_, rfl, rfl⟩ hnot
        · rintro _ _ ⟨⟩ -
          exact ⟨t, m.fastObj.started, ⟨⟨_, hposed, hinputs⟩, hlimit⟩, (Bears.refl t).setStatus _,
            ⟨hholds.1, hholds.2, hholds.3⟩, Nat.lt_succ_self _, hgiven⟩
        · rintro _ _ ⟨⟩ hstatus
          cases hstatus

theorem Carried.fetchRes (h : Carried d σ m.fastObj a t t₁ r) :
    m.fetchRes a t = t.withBuffers (m.fastObj.mem r) := by
  have hself : (fun b : Addr => if b = a then some t else none) a = some t := if_pos rfl
  rw [HarnessMgr.fetchRes, h.holds.readAll hself, Function.update_self]
  rfl

/-- Read back, the transaction has the results of the run and is otherwise as it was. -/
theorem Carried.bears_fetched {f : FastXM} (h : Carried d σ f a t t₁ r) (hf : f.OfCard d σ.given) :
    Bears (t.withBuffers (f.mem r)) (t₁.withResults (f.mem r)) := by
  obtain ⟨hcfg, hto⟩ := hf.inputs r h.lt
  rw [h.given_eq] at hcfg hto
  obtain ⟨status, mTimeOut, rfl⟩ := h.bears
  refine ⟨status, mTimeOut, ?_⟩
  unfold Transaction.withBuffers Transaction.withResults
  rw [hcfg, hto]
  rfl

theorem Local.waitForRes (h : m.Local d σ) (hstep : m.waitForRes true = some m') :
    m'.Local d σ := by
  unfold HarnessMgr.waitForRes at hstep
  split at hstep
  · cases hstep
    exact h
  · next a t htrans =>
    split at hstep
    · next hstatus =>
      obtain ⟨t₁, r, hcarried⟩ := h.running a t htrans hstatus
      rw [hcarried.fetchRes] at hstep
      dsimp only at hstep
      rw [Option.ite_none_right_eq_some] at hstep
      obtain ⟨hdone, hstep⟩ := hstep
      split at hstep
      · next t' hout =>
        obtain rfl := Option.some.inj hstep
        have hruns := h.device.results r hcarried.lt (h.device.completed hdone hcarried.lt)
        rw [hcarried.given_eq] at hruns
        have hhanded := hcarried.loaded.handed hruns (hcarried.bears_fetched h.device) hout
        refine ⟨h.setup_eq, ⟨h.device.known, h.device.inputs, h.device.results⟩, fun _ =>
          ⟨rfl, rfl⟩, ?_, ?_⟩
        · rintro _ _ ⟨⟩ hrunning
          cases hrunning
        · rintro _ _ ⟨⟩ -
          exact hhanded.setStatus .TRANSACTION_DONE
      · cases hstep
    · cases hstep
      exact h

theorem Local.step {l : HarnessLabel} (h : m.Local d σ) (hstaged : Staged d σ l m)
    (hstep : lts.step l m = some m') : m'.Local d σ := by
  cases l with
  | runTestHarness umode args =>
      obtain rfl := Option.some.inj hstep
      exact h.runTestHarness hstaged
  | runAIEGraph =>
      obtain rfl := Option.some.inj hstep
      exact ⟨h.setup_eq, h.device, h.idle, h.running, h.done⟩
  | waitForRes res =>
      cases res with
      | true => exact h.waitForRes hstep
      | false => exact absurd rfl hstaged.patient
  | complete r =>
      obtain ⟨-, hstep⟩ := Option.ite_none_right_eq_some.mp hstep
      obtain rfl := Option.some.inj hstep
      exact h.device_step (h.device.complete (hstaged.completed r rfl)) rfl rfl (fun _ => rfl) rfl
  | write r perf from_aie =>
      obtain ⟨⟨hlive, hperf, hfrom⟩, hstep⟩ := Option.ite_none_right_eq_some.mp hstep
      obtain rfl := Option.some.inj hstep
      exact h.device_step (h.device.write hlive perf from_aie) rfl rfl
        (MgrServer.sizes_write hperf hfrom) rfl

theorem local_new (d : Card) (σ : Story) : (new d.p.toSetup).Local d σ where
  setup_eq := rfl
  device := ⟨nofun, nofun, nofun⟩
  idle _ := ⟨rfl, rfl⟩
  running := nofun
  done := nofun

theorem local_of_run (hrun : lts.RunIf (Staged d σ) (new d.p.toSetup) m) : m.Local d σ :=
  hrun.invariant (fun _ _ _ h hstaged hstep => h.step hstaged hstep) (local_new d σ)

/-- In every run of the legacy manager in which no wait times out, a transaction that is done holds
what the graph makes of the user's data. -/
theorem fulfilled_of_local (hrun : lts.RunIf (Staged d σ) (new d.p.toSetup) m)
    (htrans : m.trans = some (a, t)) (hdone : t.status = .TRANSACTION_DONE) : Fulfilled d σ a t :=
  ((local_of_run hrun).done a t htrans hdone).fulfilled

/-! ### A run -/

def SoleStaged (l : HarnessLabel) (m : HarnessMgr) : Prop :=
  match l with
  | .runTestHarness _ _ => False
  | .complete r => m.fastObj.mem r = soleFound
  | .waitForRes res => res = true
  | _ => True

instance (l : HarnessLabel) (m : HarnessMgr) : Decidable (SoleStaged l m) := by
  unfold SoleStaged
  split
  · infer_instance
  · infer_instance
  · infer_instance
  · infer_instance

theorem staged_of_sole (l : HarnessLabel) (m : HarnessMgr) (h : SoleStaged l m) :
    Staged soleCard soleStory l m := by
  refine ⟨?_, ?_, ?_⟩
  · rintro umode args mode rfl
    exact h.elim
  · rintro r rfl
    have hmem : m.fastObj.mem r = soleFound := h
    rw [hmem]
    exact runs_sole
  · rintro rfl
    cases h

theorem staged_call {m : HarnessMgr} :
    Staged soleCard soleStory (.runTestHarness 0 soleArgs) m := by
  refine ⟨?_, ?_, ?_⟩
  · rintro umode args mode ⟨⟩ hmode -
    obtain rfl : TestMode.FUNC_MODE = mode := Option.some.inj hmode
    refine ⟨rfl, posed_sole, fun t hinputs => ?_⟩
    obtain ⟨t', hinputs', htest⟩ := Loops.exists_of_test
      (e := (soleTransaction .FUNC_MODE).handleInputs soleArgs)
      (fun t' : Transaction => decide (t'.getMemoryUsage ≤ 2 ^ 30)) (by decide +kernel)
    obtain rfl : t' = t := Except.ok.inj (hinputs'.symm.trans hinputs)
    refine ⟨of_decide_eq_true htest, ?_⟩
    change soleGiven = t'.buffers
    unfold soleGiven
    rw [hinputs']
  · rintro r ⟨⟩
  · rintro ⟨⟩

def soleCalls : List HarnessLabel :=
  [.write 0 soleFound.perf soleFound.from_aie, .complete 0, .waitForRes true]

theorem exists_sole_call : ∃ m t, lts.RunIf (Staged soleCard soleStory) (new solePlatform.toSetup) m
    ∧ m.trans = some (0, t) ∧ t.status = .TRANSACTION_DONE ∧ t.mode = .FUNC_MODE := by
  have hcall : ∃ m ∈ lts.step (.runTestHarness 0 soleArgs) (new solePlatform.toSetup),
      ∃ m' ∈ (lts.restrict SoleStaged).exec soleCalls m, ∃ p ∈ m'.trans, p.1 = 0
        ∧ p.2.status = .TRANSACTION_DONE ∧ p.2.mode = .FUNC_MODE := by
    decide +kernel
  obtain ⟨m, hstep, m', hexec, ⟨a, t⟩, htrans, rfl, hdone, hmode⟩ := hcall
  have hrun : lts.RunIf (Staged soleCard soleStory) (new solePlatform.toSetup) m' :=
    .head staged_call (Option.mem_def.mp hstep)
      ((Lts.RunIf.of_restrict (Lts.run_of_exec (Option.mem_def.mp hexec))).mono staged_of_sole)
  exact ⟨m', t, hrun, Option.mem_def.mp htrans, hdone, hmode⟩

theorem fulfilled_of_local_sole : ∃ m t,
    lts.RunIf (Staged soleCard soleStory) (new solePlatform.toSetup) m ∧ m.trans = some (0, t)
    ∧ t.status = .TRANSACTION_DONE ∧ Fulfilled soleCard soleStory 0 t := by
  obtain ⟨m, t, hrun, htrans, hdone, -⟩ := exists_sole_call
  exact ⟨m, t, hrun, htrans, hdone, fulfilled_of_local hrun htrans hdone⟩

end HarnessMgr

/-! ### Where the card is -/

section Location

variable {d : Card} {σ σ' : Story} {r a : Ref} {t t' : Transaction}

theorem Rewritten.isFrom_iff {p : Setup} {x y : TestHarnessArgs} (h : Rewritten p x y) :
    y.IsFrom p ↔ x.IsFrom p := by
  obtain ⟨data, rfl⟩ := h.exists_data
  exact Iff.rfl

theorem Rewritten.size_eq {p : Setup} {x y : TestHarnessArgs} (h : Rewritten p x y) :
    y.size = x.size := by
  obtain ⟨data, rfl⟩ := h.exists_data
  rfl

theorem Rewritten.repetition_eq {p : Setup} {x y : TestHarnessArgs} (h : Rewritten p x y) :
    y.repetition = x.repetition := by
  obtain ⟨data, rfl⟩ := h.exists_data
  rfl

def Legible (p : Platform) (mode : TestMode) (x : TestHarnessArgs) : Prop :=
  x.IsFrom p.toSetup ∧ 1 ≤ x.repetition.toNat ∧ (mode = .PERF_MODE → x.size ≤ p.bufBytes)

theorem Rewritten.legible_iff {p : Platform} {mode : TestMode} {x y : TestHarnessArgs}
    (h : Rewritten p.toSetup x y) : Legible p mode y ↔ Legible p mode x := by
  rw [Legible, Legible, h.isFrom_iff, h.size_eq, h.repetition_eq]

/-- What is expected of an argument does not depend on what is in the user's buffers. -/
theorem Fulfilled.data_eq (h : Fulfilled d σ r t) {x y : TestHarnessArgs} (hy : y ∈ t.args_rec)
    (hrewritten : Rewritten d.p.toSetup x y) (hlegible : Legible d.p t.mode y) :
    y.data.bytes.take x.size = x.expected d.p d.graph t.mode (σ.asked r) := by
  rw [← hrewritten.size_eq, h.computed y hy hlegible.1 hlegible.2.1 hlegible.2.2]
  exact expected_eq_of_kept h.rewritten hrewritten

theorem forall₂_of_common {α β γ : Type} {R : α → β → Prop} {S : α → γ → Prop} {l : List α}
    {l₁ : List β} {l₂ : List γ} (h₁ : List.Forall₂ R l l₁) (h₂ : List.Forall₂ S l l₂) :
    List.Forall₂ (fun b c => b ∈ l₁ ∧ c ∈ l₂ ∧ ∃ a, R a b ∧ S a c) l₁ l₂ := by
  induction h₁ generalizing l₂ with
  | nil =>
      cases h₂
      exact .nil
  | @cons a b _ l₁ hab _ ih =>
      cases h₂ with
      | @cons _ c _ l₂ hac htail =>
          refine .cons ⟨List.mem_cons_self, List.mem_cons_self, a, hab, hac⟩ ?_
          refine (ih htail).imp fun b c h => ?_
          exact ⟨List.mem_cons_of_mem _ h.1, List.mem_cons_of_mem _ h.2.1, h.2.2⟩

theorem Fulfilled.agree (h : Fulfilled d σ r t) (h' : Fulfilled d σ' a t')
    (hasked : σ.asked r = σ'.asked a) (hmode : t.mode = t'.mode) :
    List.Forall₂ (fun x y => Legible d.p t.mode x →
      x.size = y.size ∧ x.data.bytes.take x.size = y.data.bytes.take y.size) t.args_rec
        t'.args_rec := by
  have hrewritten := h'.rewritten
  rw [← hasked] at hrewritten
  refine (forall₂_of_common h.rewritten hrewritten).imp fun x y hxy hlegible => ?_
  obtain ⟨hx, hy, z, hzx, hzy⟩ := hxy
  have hlegible' : Legible d.p t'.mode y := by
    rw [← hmode]
    exact hzy.legible_iff.mpr (hzx.legible_iff.mp hlegible)
  refine ⟨hzx.size_eq.trans hzy.size_eq.symm, ?_⟩
  calc
    x.data.bytes.take x.size = x.data.bytes.take z.size := by rw [hzx.size_eq]
    _ = z.expected d.p d.graph t.mode (σ.asked r) := h.data_eq hx hzx hlegible
    _ = z.expected d.p d.graph t'.mode (σ'.asked a) := by rw [hasked, hmode]
    _ = y.data.bytes.take z.size := (h'.data_eq hy hzy hlegible').symm
    _ = y.data.bytes.take y.size := by rw [hzy.size_eq]

/-- A call that is made through client and server, among others, and the same call on a card in the
machine: where both are done, the user reads the same. -/
theorem agree_of_runs {s : System} {m : HarnessMgr} {graphs : Nat} {monitorInterval : UInt64}
    (hremote : System.lts.RunIf (System.Staged d σ) (.new d.p.toSetup graphs monitorInterval) s)
    (hlocal : HarnessMgr.lts.RunIf (HarnessMgr.Staged d σ') (.new d.p.toSetup) m)
    (hover : ¬ s.client.main.Over) (ht : s.client.heap r = some t) (hpc : s.client.pc r = .returned)
    (ht' : m.trans = some (a, t')) (hdone : t.status = .TRANSACTION_DONE)
    (hdone' : t'.status = .TRANSACTION_DONE) (hasked : σ.asked r = σ'.asked a)
    (hmode : t.mode = t'.mode) :
    List.Forall₂ (fun x y => Legible d.p t.mode x →
      x.size = y.size ∧ x.data.bytes.take x.size = y.data.bytes.take y.size) t.args_rec
        t'.args_rec :=
  (System.handed_of_run hremote hover ht hpc hdone).fulfilled.agree
    ((HarnessMgr.local_of_run hlocal).done a t' ht' hdone').fulfilled hasked hmode

end Location

theorem agree_of_runs_sole : ∃ s m t t',
    System.lts.RunIf (System.Staged soleCard soleStory) (.new solePlatform.toSetup 0 0) s
    ∧ HarnessMgr.lts.RunIf (HarnessMgr.Staged soleCard soleStory) (.new solePlatform.toSetup) m
    ∧ s.client.heap 0 = some t ∧ m.trans = some (0, t')
    ∧ List.Forall₂ (fun x y => Legible solePlatform t.mode x →
      x.size = y.size ∧ x.data.bytes.take x.size = y.data.bytes.take y.size) t.args_rec
        t'.args_rec := by
  obtain ⟨s, t, hremote, hidle, hpc, ht, hdone, hmode⟩ := System.exists_sole_call
  obtain ⟨m, t', hlocal, ht', hdone', hmode'⟩ := HarnessMgr.exists_sole_call
  exact ⟨s, m, t, t', hremote, hlocal, ht, ht', agree_of_runs hremote hlocal
    (by rw [hidle]; exact id) ht hpc ht' hdone hdone' rfl (hmode.trans hmode'.symm)⟩

end AieTestHarness
