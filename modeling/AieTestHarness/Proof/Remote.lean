import AieTestHarness.Proof.Card
import AieTestHarness.Proof.Cargo
import AieTestHarness.Proof.Delivery
import AieTestHarness.Lib.Simulation
import AieTestHarness.Proof.Loaded

/-!
# A card that is far away

A user who works through client and server, with any number of transactions under way, finds in the
buffers of a transaction that is done what a card of their own would have left there.
-/

namespace AieTestHarness

open Transaction

/-- For the record: what each transaction was called with, and what each run found in its
buffers. -/
structure Story where
  asked : Ref → List TestHarnessArgs
  given : Nat → PlBuffers

section Loaded

variable (d : Card) (σ : Story) {r : Ref} {t t' t₁ : Transaction}

theorem Posed.congr {p : Platform} {args : List TestHarnessArgs} (h : Posed p t args)
    (hsetup : t'.setup = t.setup) (hmode : t'.mode = t.mode) : Posed p t' args :=
  ⟨hsetup.trans h.setup_eq, h.distinct, h.buffer_le, by rw [hmode]; exact h.perf⟩

/-- The transaction is what `handleInputs` has made of the call. -/
structure Loaded (r : Ref) (t₁ : Transaction) : Prop where
  made : ∃ t₀, Posed d.p t₀ (σ.asked r) ∧ t₀.handleInputs (σ.asked r) = .ok t₁
  limit : t₁.getMemoryUsage ≤ 2 ^ 30

/-- The results of a run of the kernel have been handed to the user. -/
def Handed (r : Ref) (t : Transaction) : Prop :=
  ∃ t₁ b t₂, Loaded d σ r t₁ ∧ d.Runs t₁.buffers b ∧ (t₁.withResults b).handleOutputs = .ok t₂
    ∧ Bears t t₂

/-- The user's buffers hold what the graph makes of the user's data. -/
structure Fulfilled (r : Ref) (t : Transaction) : Prop where
  rewritten : List.Forall₂ (Rewritten d.p.toSetup) (σ.asked r) t.args_rec
  computed : Computed d.p d.graph t.mode t.args_rec

variable {d σ}

theorem Loaded.fresh (h : Loaded d σ r t₁) : t₁.buffers.fresh = t₁.buffers := by
  obtain ⟨t₀, -, hinputs⟩ := h.made
  exact handleInputs_fresh hinputs

theorem Loaded.handed (h : Loaded d σ r t₁) {b : PlBuffers} (hruns : d.Runs t₁.buffers b)
    (hbears : Bears t (t₁.withResults b)) (hout : t.handleOutputs = .ok t') : Handed d σ r t' := by
  obtain ⟨t₂, hout₂, hbears'⟩ := hbears.handleOutputs hout
  exact ⟨t₁, b, t₂, h, hruns, hout₂, hbears'⟩

theorem Handed.setTimeOut (h : Handed d σ r t) (mTimeOut : Nat) :
    Handed d σ r { t with mTimeOut } := by
  obtain ⟨t₁, b, t₂, hloaded, hruns, hout, hbears⟩ := h
  exact ⟨t₁, b, t₂, hloaded, hruns, hout, hbears.setTimeOut mTimeOut⟩

theorem Handed.setStatus (h : Handed d σ r t) (status : TransactionStatus) :
    Handed d σ r { t with status } := by
  obtain ⟨t₁, b, t₂, hloaded, hruns, hout, hbears⟩ := h
  exact ⟨t₁, b, t₂, hloaded, hruns, hout, hbears.setStatus status⟩

theorem Handed.fulfilled (h : Handed d σ r t) : Fulfilled d σ r t := by
  obtain ⟨t₁, b, t₂, ⟨⟨t₀, hposed, hinputs⟩, hlimit⟩, hruns, hout, hbears⟩ := h
  obtain ⟨u, s, hrun, hcomplete, rfl⟩ := hruns
  obtain ⟨t'', hout', hrewritten, hcomputed⟩ := (d.harness u t₁.buffers).computed_of_complete t₀ t₁
    (σ.asked r) s d.burst_pos d.burst_le hposed hinputs hlimit rfl hrun hcomplete
  obtain rfl : t₂ = t'' := Except.ok.inj (hout.symm.trans hout')
  have hmode : t.mode = t₀.mode := by
    rw [hbears.mode_eq, handleOutputs_mode hout]
    change t₁.mode = t₀.mode
    exact handleInputs_mode hinputs
  exact ⟨by rw [hbears.args_eq]; exact hrewritten, by rw [hbears.args_eq, hmode]; exact hcomputed⟩

end Loaded

def soleStory : Story := ⟨fun _ => soleArgs, fun _ => soleGiven⟩

namespace MgrClient

variable {c : MgrClient} {r : Ref} {t : Transaction}

theorem fresh_of_runTestHarness {umode : UInt8} {args : List TestHarnessArgs} {timeout : UInt32}
    (hmain : c.main.fresh = none)
    (hfresh : (c.runTestHarness umode args timeout).main.fresh = some r)
    (ht : (c.runTestHarness umode args timeout).heap r = some t) :
    r = c.created ∧ t.getMemoryUsage ≤ c.max_memory_usage
      ∧ ∃ mode, TestMode.ofNat? umode.toNat = some mode
        ∧ (Transaction.new (transId c.created).toNat mode c.setup.num_channels c.setup.word_size
          c.setup.depth c.setup.memWidth timeout.toNat).handleInputs args = .ok t := by
  have hsame : ∀ {c' : MgrClient}, c'.main = c.main → c'.main.fresh ≠ some r := fun heq h => by
    rw [heq, hmain] at h
    cases h
  unfold runTestHarness at hfresh ht
  split at hfresh
  · exact absurd hfresh (hsame rfl)
  · next mode hmode =>
    rw [hmode] at ht
    dsimp only at hfresh ht
    split at hfresh
    · exact absurd hfresh (hsame rfl)
    · next t' hinputs =>
      split at hfresh
      · exact absurd hfresh (hsame rfl)
      · next htotal =>
        split at hfresh
        · exact absurd hfresh (hsame rfl)
        · next hlimit =>
          obtain rfl : c.created = r := Option.some.inj hfresh
          rw [hinputs] at ht
          dsimp only at ht
          rw [if_neg htotal, if_neg hlimit] at ht
          change Function.update (c.create mode timeout).heap c.created (some t') c.created
            = some t at ht
          rw [Function.update_self, Option.some.injEq] at ht
          rw [← ht]
          exact ⟨rfl, Nat.le_of_not_gt hlimit, mode, hmode, hinputs⟩

end MgrClient

namespace System

variable {s s' : System} {r : Ref} {t t' : Transaction} {l : SystemLabel}

/-! ### Who makes a transaction -/

theorem created_of_mainStep (hl : ∀ umode args timeout, l ≠ .runTestHarness umode args timeout)
    (hmain : s.client.main = .idle) (h : s.mainStep l = some s') :
    s'.client.created = s.client.created := by
  have hcalm : ∀ {c : MgrClient}, (∃ main : MainPc, main.Calm ∧ c = s.client.goto main) →
      c.created = s.client.created := by
    rintro _ ⟨main, -, rfl⟩
    rfl
  cases l with
  | runTestHarness umode args timeout => exact absurd rfl (hl umode args timeout)
  | runAIEGraph g_idx iters =>
      simp only [mainStep, call, hmain, if_true, Option.map_some, Option.some.injEq] at h
      rw [← h]
      exact hcalm (s.client.runAIEGraph_calm hmain g_idx iters)
  | setServerTimeOut t =>
      simp only [mainStep, call, hmain, if_true, Option.map_some, Option.some.injEq] at h
      rw [← h]
      exact hcalm (s.client.setServerTimeOut_calm t .done)
  | waitForRes | getServerTimeOut =>
      simp only [mainStep, call, hmain, if_true, Option.map_some, Option.some.injEq] at h
      rw [← h]
      rfl
  | destroy =>
      simp only [mainStep, waitStep, Option.ite_none_right_eq_some, Option.some.injEq] at h
      rw [← h.2]
      rfl
  | _ => simp [mainStep, runStep, exchangeStep, waitStep, hmain] at h

theorem label_of_created (hmain : s.client.main = .idle) (hstep : lts.step l s = some s')
    (hne : s'.client.created ≠ s.client.created) :
    ∃ umode args timeout, l = .runTestHarness umode args timeout := by
  by_contra hl
  simp only [not_exists] at hl
  refine hne ?_
  simp only [lts] at hstep
  split at hstep
  · rw [(serverMoves_of_sessionStep hstep).client_eq]
  · rw [(serverMoves_of_lostStep hstep).client_eq]
  · rw [(serverMoves_of_serverStep hstep).client_eq]
  · rw [Option.ite_none_left_eq_some] at hstep
    replace hstep := hstep.2
    split at hstep
    · obtain ⟨t, -, hmoves⟩ := waiterMoves_of_waiterStep hstep
      exact hmoves.created_eq
    · exact created_of_mainStep hl hmain hstep

theorem client_of_call {umode : UInt8} {args : List TestHarnessArgs} {timeout : UInt32}
    (hstep : lts.step (.runTestHarness umode args timeout) s = some s') :
    s'.client = s.client.runTestHarness umode args timeout := by
  simp only [lts, waiterOf, mainStep, call, Option.ite_none_left_eq_some,
    Option.ite_none_right_eq_some, Option.map_some, Option.some.injEq] at hstep
  obtain ⟨-, -, rfl⟩ := hstep
  rfl

theorem replies_of_ended {m m' : MgrServer} {l : ServerLabel} {answers : List Answer}
    (hstep : MgrServer.lts.step l m = some m') (hended : m'.session = .ended)
    (hanswers : replies m m' l = some answers) : answers = [] := by
  have hsession := session_of_step hstep
  simp only [MgrServer.lts, hsession, if_false] at hstep
  cases l with
  | runTestHarness n =>
      simp only [MgrServer.sessionStep, Option.ite_none_right_eq_some, Option.some.injEq] at hstep
      obtain ⟨hidle, rfl⟩ := hstep
      unfold MgrServer.runTestHarness at hended
      split at hended
      · cases hidle.symm.trans hended
      · cases hended
  | queryTransactionStatus id =>
      rw [replies, if_pos hended] at hanswers
      exact (Option.some.inj hanswers).symm
  | join =>
      simp only [MgrServer.sessionStep] at hstep
      split at hstep
      · obtain ⟨t, -, rfl⟩ := Option.map_eq_some_iff.mp (Option.ite_none_right_eq_some.mp hstep).2
        cases hended
      · cases hstep
  | _ => exact (Option.some.inj hanswers).symm

theorem toClient_of_ended (hstep : lts.step l s = some s')
    (hended : s'.server.session = .ended) (hsession : s.server.session ≠ .ended) :
    s'.toClient = s.toClient := by
  simp only [lts] at hstep
  split at hstep
  · obtain ⟨l, toServer, server, answers, -, hserver, hanswers, hnone, hother⟩ :=
      sessionStep_eq_some hstep
    cases hq : s.otherRequest with
    | none =>
        obtain rfl := hnone hq
        obtain rfl := replies_of_ended hserver hended hanswers
        exact List.append_nil _
    | some q =>
        have hs' := hother q hq
        by_cases hserverEnded : server.session = .ended
        · rw [if_pos hserverEnded] at hs'
          obtain rfl := replies_of_ended hserver hserverEnded hanswers
          rw [hs']
          exact List.append_nil _
        · rw [if_neg hserverEnded] at hs'
          rw [hs'] at hended
          cases q <;> exact absurd hended hserverEnded
  · unfold lostStep at hstep
    split at hstep
    iterate 3
      cases hstep
      rfl
    · rw [Option.ite_none_right_eq_some] at hstep
      obtain ⟨-, hstep⟩ := hstep
      cases hstep
      rfl
    · cases hstep
    · cases hstep
  · unfold serverStep at hstep
    split at hstep
    iterate 4
      obtain ⟨m', -, rfl⟩ := Option.map_eq_some_iff.mp hstep
      rfl
    cases hstep
  · replace hstep := (Option.ite_none_left_eq_some.mp hstep).2
    have hserver : s'.server = s.server := by
      split at hstep
      · obtain ⟨t, -, hmoves⟩ := waiterMoves_of_waiterStep hstep
        exact hmoves.server_eq
      · exact (mainMoves_of_mainStep hstep).server_eq
    rw [hserver] at hended
    exact absurd hended hsession

/-! ### What is left on the wire -/

/-- The answers on their way are the first of those the client waits for, also when the session has
ended. -/
def Trail (s : System) : Prop := s.toClient.map Answer.kind <+: s.client.due

theorem trail_of_nil (h : s.toClient = []) : s.Trail := by
  rw [Trail, h]
  exact List.nil_prefix

theorem Trail.eq_nil (h : s.Trail) (hdue : s.client.due = []) : s.toClient = [] := by
  rw [Trail, hdue, List.prefix_nil, List.map_eq_nil_iff] at h
  exact h

theorem Trail.congr (h : s.Trail) (hcl : s'.toClient = s.toClient)
    (hdue : s'.client.due = s.client.due) :
    s'.Trail := by
  rw [Trail, hcl, hdue]
  exact h

theorem Trail.take (h : s.Trail) {kinds : List AnswerKind} {kind : AnswerKind} {answer : Answer}
    {answers : List Answer} (hcl : s.toClient = answer :: answers)
    (hdue : s.client.due = kind :: kinds)
    (hcl' : s'.toClient = s.toClient.tail) (hdue' : s'.client.due = kinds) : s'.Trail := by
  rw [Trail, hcl, hdue, List.map_cons, List.cons_prefix_cons] at h
  rw [Trail, hcl', hcl, hdue']
  exact h.2

theorem Trail.last (h : s.Trail) {kind : AnswerKind} (hdue : s.client.due = [kind])
    (hcl' : s'.toClient = s.toClient.tail) : s'.Trail := by
  refine trail_of_nil ?_
  rw [hcl']
  cases hcl : s.toClient with
  | nil => rfl
  | cons answer answers =>
      rw [Trail, hcl, hdue, List.map_cons, List.cons_prefix_cons, List.prefix_nil,
        List.map_eq_nil_iff] at h
      exact h.2

theorem Trail.mainMoves (h : s.Trail) (hc : s.client.Inv) (hne : s.client.main ≠ .terminated)
    (hmoves : s.MainMoves s') : s'.Trail := by
  have hdue : ∀ {main : MainPc}, s.client.main = main → main.Holds → s.client.due = main.due := by
    intro main hmain hholds
    rw [due_of_main ((hc.locks.main hne).mpr (by rwa [hmain])), hmain]
  have hcalm : ∀ {s' : System} {main : MainPc}, s.client.main = main → ¬ main.Holds →
      s'.toClient = s.toClient → s'.client.req_mtx = s.client.req_mtx → s'.client.pc = s.client.pc →
      s'.Trail := fun hmain hholds hcl hreq hpc =>
    h.congr hcl
      (due_congr_main hc.locks hne hreq hpc fun hm => absurd (by rwa [hmain] at hm) hholds)
  cases hmoves with
  | created hmain => exact hcalm hmain id rfl rfl rfl
  | goto hmain =>
      rcases hmain with hmain | ⟨w, hmain⟩
      · exact hcalm hmain id rfl rfl rfl
      · exact hcalm hmain id rfl rfl rfl
  | size hmain | setTimeOut hmain | join hmain => exact hcalm hmain id rfl rfl rfl
  | ask hmain hreq | request hmain hreq | destroy hmain hreq =>
      exact trail_of_nil (h.eq_nil (due_of_none hreq))
  | @answered r memorySize b answers hmain => exact h.last (hdue hmain trivial) rfl
  | send hmain | spawn hmain | release hmain | unanswered hmain =>
      exact trail_of_nil (h.eq_nil (hdue hmain trivial))
  | exchanged hmain hanswers hq =>
      have hkinds := hdue hmain trivial
      rcases hq with ⟨rfl, t, rfl⟩ | ⟨⟨g_idx, iters, rfl⟩ | ⟨t, rfl⟩, v, rfl⟩
      · exact h.last hkinds rfl
      · exact h.last hkinds rfl
      · exact h.last hkinds rfl
  | fails hmain hgone => exact trail_of_nil hgone.2

theorem Trail.waiterMoves (h : s.Trail) (hc : s.client.Inv) (hmoves : s.WaiterMoves r t s') :
    s'.Trail := by
  have hdue : ∀ {pc : WaiterPc}, s.client.pc r = pc → pc.Holds → s.client.due = pc.due := by
    intro pc hpc hholds
    rw [due_of_waiter ((hc.locks.waiter r).mpr (by rwa [hpc])), hpc]
  have hpass : ∀ {s' : System} {pc : WaiterPc} (pc' : WaiterPc), s.client.pc r = pc
    → pc'.due = pc.due →
      s'.toClient = s.toClient → s'.client.req_mtx = s.client.req_mtx →
      s'.client.main = s.client.main → s'.client.pc = Function.update s.client.pc r pc'
        → s'.Trail :=
    fun _ hpc heq hcl hreq hmain hpc' =>
      h.congr hcl (due_congr_waiter hreq hmain hpc' (by rw [heq, hpc]))
  have hself : ∀ {s' : System} {pc : WaiterPc} (pc' : WaiterPc), s.client.pc r = pc → pc.Holds →
      s'.client.req_mtx = s.client.req_mtx → s'.client.pc = Function.update s.client.pc r pc' →
      s'.client.due = pc'.due := fun _ hpc hholds hreq hpc' =>
    due_of_update (hreq.trans ((hc.locks.waiter r).mpr (by rwa [hpc]))) hpc'
  cases hmoves with
  | lockQuery hpc => exact hpass .test hpc rfl rfl rfl rfl rfl
  | test hpc =>
      refine hpass _ hpc ?_ rfl rfl rfl rfl
      split
      · rfl
      · rfl
  | query hpc hreq | lockReq hpc hreq => exact trail_of_nil (h.eq_nil (due_of_none hreq))
  | queried hpc => exact h.last (hdue hpc trivial) rfl
  | unlockQuery hpc => exact hpass .ask hpc rfl rfl rfl rfl rfl
  | wait hpc | unlockReq hpc => exact trail_of_nil (h.eq_nil (hdue hpc trivial))
  | @recvStatus status answers hpc hanswers =>
      exact h.take hanswers (hdue hpc trivial) rfl
        (hself (.received status) hpc trivial rfl rfl)
  | setStatus hpc => exact hpass .fromAie hpc rfl rfl rfl rfl rfl
  | recvFromAie hpc hanswers =>
      exact h.take hanswers (hdue hpc trivial) rfl (hself .perf hpc trivial rfl rfl)
  | recvPerf hpc hanswers => exact h.last (hdue hpc trivial) rfl
  | handleOutputs hpc => exact hpass .returned hpc rfl rfl rfl rfl rfl
  | throws hpc hgone => exact trail_of_nil hgone.2

theorem trail_of_run {setup : Setup} {graphs : Nat} {monitorInterval : UInt64}
    {C : SystemLabel → System → Prop} (hrun : lts.RunIf C (.new setup graphs monitorInterval) s) :
    s.Trail := by
  induction hrun with
  | refl => exact trail_of_nil rfl
  | @tail s s' l hprev hC hstep ih =>
      have hc := MgrClient.inv_of_run hprev
      rcases step_cases hstep with hserver | ⟨hne, hmain⟩ | ⟨-, r, t, -, hwaiter⟩
      · by_cases hended : s'.server.session = .ended
        · refine ih.congr (toClient_of_ended hstep hended hserver.session_ne) ?_
          rw [hserver.client_eq]
        · rw [Trail, ← (wire_of_run (.tail l hprev hC hstep) hended).dual, due, List.append_assoc]
          exact List.prefix_append _ _
      · exact ih.mainMoves hc hne hmain
      · exact ih.waiterMoves hc hwaiter

/-! ### What is on its way to a waiter -/

def results (b : PlBuffers) : List Answer := [.from_aie_ptr b.from_aie, .perf_ptr b.perf]

variable (d : Card) (σ : Story)

/-- The step is one of a server whose device is the card, and a call is what the story says. -/
structure Staged (l : SystemLabel) (s : System) : Prop where
  asked : ∀ umode args timeout mode, l = .runTestHarness umode args timeout →
    TestMode.ofNat? umode.toNat = some mode → σ.asked s.client.created = args
      ∧ Posed d.p (.new 0 mode d.p.num_channels d.p.word_size d.p.depth d.p.memWidth 0) args
  device : ∀ l', l = .server l' → MgrServer.OnCard d σ.given l' s.server

/-- What is there of the results of a transaction whose waiter stands at `pc`, and what is on its
way. -/
def Parcel (s : System) (r : Ref) (t : Transaction) : WaiterPc → Prop
  | .asking => ∃ t₁, Loaded d σ r t₁ ∧ Bears t t₁ ∧ (s.toClient = [] ∨ ∃ status b,
      s.toClient = .status status :: results b
        ∧ (status = .TRANSACTION_DONE → d.Runs t₁.buffers b))
  | .received status => ∃ t₁ b, Loaded d σ r t₁ ∧ Bears t t₁ ∧ s.toClient = results b
      ∧ (status = .TRANSACTION_DONE → d.Runs t₁.buffers b)
  | .fromAie => ∃ t₁ b, Loaded d σ r t₁ ∧ Bears t t₁ ∧ s.toClient = results b
      ∧ (t.status = .TRANSACTION_DONE → d.Runs t₁.buffers b)
  | .perf => ∃ t₁ b, Loaded d σ r t₁ ∧ Bears t { t₁ with from_aie_ptr := b.from_aie }
      ∧ s.toClient = [.perf_ptr b.perf] ∧ (t.status = .TRANSACTION_DONE → d.Runs t₁.buffers b)
  | .unlock | .outputs => ∃ t₁ b, Loaded d σ r t₁ ∧ Bears t (t₁.withResults b)
      ∧ (t.status = .TRANSACTION_DONE → d.Runs t₁.buffers b)
  | .returned => t.status = .TRANSACTION_DONE → Handed d σ r t
  | .start | .test | .query | .querying | .leave | .locked | .ask =>
    ∃ t₁, Loaded d σ r t₁ ∧ Bears t t₁

structure Parcels (s : System) : Prop where
  setup_eq : s.client.setup = d.p.toSetup
  max_eq : s.client.max_memory_usage = 2 ^ 30
  fresh : ∀ r t, s.client.main.fresh = some r → s.client.heap r = some t →
    ∃ t₁, Loaded d σ r t₁ ∧ Bears t t₁
  parcel : ∀ r t, s.client.heap r = some t → s.Parcel d σ r t (s.client.pc r)

variable {d σ} {pc : WaiterPc}

theorem Parcel.congr (h : s.Parcel d σ r t pc) (hcl : pc.Receives → s'.toClient = s.toClient) :
    s'.Parcel d σ r t pc := by
  cases pc with
  | asking | received | fromAie | perf =>
      simp only [Parcel, hcl trivial]
      exact h
  | _ => exact h

theorem Parcel.setTimeOut (h : s.Parcel d σ r t pc) (mTimeOut : Nat) :
    s.Parcel d σ r { t with mTimeOut } pc := by
  cases pc with
  | asking =>
      obtain ⟨t₁, hloaded, hbears, hcl⟩ := h
      exact ⟨t₁, hloaded, hbears.setTimeOut mTimeOut, hcl⟩
  | received | fromAie | perf =>
      obtain ⟨t₁, b, hloaded, hbears, hcl, hruns⟩ := h
      exact ⟨t₁, b, hloaded, hbears.setTimeOut mTimeOut, hcl, hruns⟩
  | unlock | outputs =>
      obtain ⟨t₁, b, hloaded, hbears, hruns⟩ := h
      exact ⟨t₁, b, hloaded, hbears.setTimeOut mTimeOut, hruns⟩
  | returned => exact fun hdone => (h hdone).setTimeOut mTimeOut
  | _ =>
      obtain ⟨t₁, hloaded, hbears⟩ := h
      exact ⟨t₁, hloaded, hbears.setTimeOut mTimeOut⟩

theorem no_receives_of_main (hl : s.client.Locks) (hne : s.client.main ≠ .terminated)
    (hholds : s.client.main.Holds) (r : Ref) : ¬ (s.client.pc r).Receives := by
  intro hrec
  have hreq := (hl.waiter r).mpr (WaiterPc.holds_of_receives hrec)
  rw [(hl.main hne).mpr hholds] at hreq
  cases hreq

/-! ### Steps of the main thread -/

theorem Parcels.main (h : s.Parcels d σ) (hsetup : s'.client.setup = s.client.setup)
    (hmax : s'.client.max_memory_usage = s.client.max_memory_usage)
    (hheap : s'.client.heap = s.client.heap) (hpc : s'.client.pc = s.client.pc)
    (hfresh : ∀ r, s'.client.main.fresh = some r → s.client.main.fresh = some r)
    (hcl : ∀ r, (s.client.pc r).Receives → s'.toClient = s.toClient) : s'.Parcels d σ where
  setup_eq := hsetup.trans h.setup_eq
  max_eq := hmax.trans h.max_eq
  fresh r t hr ht := h.fresh r t (hfresh r hr) (by rwa [hheap] at ht)
  parcel r t ht := by
    rw [hheap] at ht
    rw [hpc]
    exact (h.parcel r t ht).congr (hcl r)

theorem Parcels.calm (h : s.Parcels d σ) (hsetup : s'.client.setup = s.client.setup)
    (hmax : s'.client.max_memory_usage = s.client.max_memory_usage)
    (hheap : s'.client.heap = s.client.heap) (hpc : s'.client.pc = s.client.pc)
    (hcalm : s'.client.main.Calm)
    (hcl : ∀ r, (s.client.pc r).Receives → s'.toClient = s.toClient) : s'.Parcels d σ := by
  refine h.main hsetup hmax hheap hpc (fun r hr => ?_) hcl
  rw [hcalm.fresh_eq] at hr
  cases hr

theorem Parcels.created {umode : UInt8} {args : List TestHarnessArgs} {timeout timeout' : UInt32}
    {mode : TestMode} {main : MainPc} (h : s.Parcels d σ) (hc : s.client.Inv)
    (hstaged : Staged d σ (.runTestHarness umode args timeout') s) (hmain : s.client.main = .idle)
    (hmade : MgrClient.Made s.client.created s.client.setup t)
    (hcall : s.client.runTestHarness umode args timeout'
      = ((s.client.create mode timeout).setTrans s.client.created t).goto main) :
    (s.withClient
      (((s.client.create mode timeout).setTrans s.client.created t).goto main)).Parcels d σ where
  setup_eq := h.setup_eq
  max_eq := h.max_eq
  fresh r u hr hu := by
    obtain ⟨rfl, hlimit, mode', hmode', hinputs⟩ := MgrClient.fresh_of_runTestHarness
      (c := s.client) (by rw [hmain]; rfl) (by rw [hcall]; exact hr) (by rw [hcall]; exact hu)
    obtain ⟨hargs, hposed⟩ := hstaged.asked umode args timeout' mode' rfl hmode'
    rw [h.max_eq] at hlimit
    rw [h.setup_eq] at hinputs
    rw [← hargs] at hinputs hposed
    refine ⟨u, ⟨⟨_, ?_, hinputs⟩, hlimit⟩, .refl u⟩
    exact hposed.congr rfl rfl
  parcel r u hu := by
    change Function.update (Function.update s.client.heap _ _) s.client.created (some t) r
      = some u at hu
    change Parcel d σ _ r u (s.client.pc r)
    by_cases hr : r = s.client.created
    · rw [hr, Function.update_self] at hu
      obtain rfl := Option.some.inj hu
      have hpc : s.client.pc r = .returned := by
        by_contra hret
        exact Nat.ne_of_lt (hc.book.known r (hc.book.running r hret)) hr
      rw [hpc]
      exact fun hdone => absurd hdone hmade.status_ne
    · rw [Function.update_of_ne hr, Function.update_of_ne hr] at hu
      exact (h.parcel r u hu).congr fun _ => rfl

theorem Parcels.spawn (h : s.Parcels d σ) (hmain : s.client.main = .sent r)
    (ht : s.client.heap r = some t) : (s.withClient (s.client.spawn r t)).Parcels d σ where
  setup_eq := h.setup_eq
  max_eq := h.max_eq
  fresh r u hr hu := by cases hr
  parcel ρ u hu := by
    change Function.update s.client.heap r (some { t with status := .TRANSACTION_RUNNING }) ρ
      = some u at hu
    change Parcel d σ _ ρ u (Function.update s.client.pc r .start ρ)
    by_cases hρ : ρ = r
    · rw [hρ, Function.update_self] at hu ⊢
      obtain rfl := Option.some.inj hu
      obtain ⟨t₁, hloaded, hbears⟩ := h.fresh r t (by rw [hmain]; rfl) ht
      exact ⟨t₁, hloaded, hbears.setStatus _⟩
    · rw [Function.update_of_ne hρ] at hu ⊢
      exact (h.parcel ρ u hu).congr fun _ => rfl

theorem Parcels.setTimeOut (h : s.Parcels d σ) {w : WaitForRes} (ht : s.client.heap r = some t) :
    (s.withClient (s.client.setTimeOut w r t)).Parcels d σ where
  setup_eq := h.setup_eq
  max_eq := h.max_eq
  fresh r u hr hu := by cases hr
  parcel ρ u hu := by
    change Function.update s.client.heap r (some { t with mTimeOut := w.timeout_millisec.toNat }) ρ
      = some u at hu
    change Parcel d σ _ ρ u (s.client.pc ρ)
    by_cases hρ : ρ = r
    · rw [hρ, Function.update_self] at hu
      obtain rfl := Option.some.inj hu
      rw [hρ]
      exact ((h.parcel r t ht).setTimeOut _).congr fun _ => rfl
    · rw [Function.update_of_ne hρ] at hu
      exact (h.parcel ρ u hu).congr fun _ => rfl

theorem Parcels.mainMoves (h : s.Parcels d σ) (hc : s.client.Inv) (hstaged : Staged d σ l s)
    (hstep : lts.step l s = some s') (hover : ¬ s'.client.main.Over) (hmoves : s.MainMoves s') :
    s'.Parcels d σ := by
  have hfresh : ∀ {main : MainPc} {r}, s.client.main = main → main.fresh = some r →
      s.client.main.fresh = some r := fun hmain hr => by rw [hmain]; exact hr
  cases hmoves with
  | @created mode timeout t main hmain hmade hmain' =>
      obtain ⟨umode, args, timeout', rfl⟩ := label_of_created hmain hstep (Nat.succ_ne_self _)
      exact h.created hc hstaged hmain hmade (client_of_call hstep).symm
  | goto hmain hcalm => exact h.calm rfl rfl rfl rfl hcalm fun _ _ => rfl
  | size hmain => exact h.main rfl rfl rfl rfl (fun r hr => hfresh hmain hr) fun _ _ => rfl
  | ask hmain hreq => exact h.main rfl rfl rfl rfl (fun r hr => hfresh hmain hr) fun _ _ => rfl
  | @answered r memorySize b answers hmain hanswers =>
      have hnone := no_receives_of_main hc.locks (by simp [hmain]) (by rw [hmain]; trivial)
      cases b with
      | true =>
          exact h.main rfl rfl rfl rfl (fun r hr => hfresh hmain hr) fun r hr => absurd hr (hnone r)
      | false => exact h.calm rfl rfl rfl rfl trivial fun r hr => absurd hr (hnone r)
  | send hmain ht => exact h.main rfl rfl rfl rfl (fun r hr => hfresh hmain hr) fun _ _ => rfl
  | spawn hmain ht => exact h.spawn hmain ht
  | request hmain hreq => exact h.main rfl rfl rfl rfl (by rintro r ⟨⟩) fun _ _ => rfl
  | unanswered hmain hcalm => exact h.calm rfl rfl rfl rfl hcalm fun _ _ => rfl
  | exchanged hmain hanswers hq hcalm =>
      have hnone := no_receives_of_main hc.locks (by simp [hmain]) (by rw [hmain]; trivial)
      exact h.calm rfl rfl rfl rfl hcalm fun r hr => absurd hr (hnone r)
  | fails hmain hgone => exact h.calm rfl rfl rfl rfl trivial fun _ _ => rfl
  | setTimeOut hmain hpending ht => exact h.setTimeOut ht
  | join hmain hpc hcalm => exact h.calm rfl rfl rfl rfl hcalm fun _ _ => rfl
  | destroy hmain hreq => exact absurd trivial hover
  | release hmain =>
      refine absurd ?_ hover
      change (s.client.release).main.Over
      unfold MgrClient.release MgrClient.goto
      split <;> trivial

/-! ### Steps of a waiter -/

/-- What the waiter's own statement makes of its parcel is all there is to show. -/
theorem Parcels.waiter (h : s.Parcels d σ) (hc : s.client.Inv) (hmoves : s.WaiterMoves r t s')
    (hmain : s'.client.main = s.client.main) (hheap : s.client.main.fresh ≠ some r)
    (hsetup : s'.client.setup = s.client.setup)
    (hmax : s'.client.max_memory_usage = s.client.max_memory_usage)
    (hcl : s'.toClient = s.toClient ∨ (s.client.pc r).Holds)
    (hself : ∀ t', s'.client.heap r = some t' → s'.Parcel d σ r t' (s'.client.pc r)) :
    s'.Parcels d σ where
  setup_eq := hsetup.trans h.setup_eq
  max_eq := hmax.trans h.max_eq
  fresh ρ u hρ hu := by
    rw [hmain] at hρ
    have hne : ρ ≠ r := by
      rintro rfl
      exact hheap hρ
    rw [(hmoves.other hne).1] at hu
    exact h.fresh ρ u hρ hu
  parcel ρ u hu := by
    by_cases hne : ρ = r
    · rw [hne] at hu ⊢
      exact hself u hu
    · obtain ⟨hheap, hpc⟩ := hmoves.other hne
      rw [hheap] at hu
      rw [hpc]
      refine (h.parcel ρ u hu).congr fun hrec => ?_
      rcases hcl with heq | hholds
      · exact heq
      · exact absurd (eq_of_holds hc.locks hholds (WaiterPc.holds_of_receives hrec)) hne

theorem Parcels.waiterMoves (h : s.Parcels d σ) (hc : s.client.Inv) (ht : s.client.heap r = some t)
    (hover : ¬ s'.client.main.Over) (hsilent : s.client.pc r = .ask → s.toClient = [])
    (hmoves : s.WaiterMoves r t s') : s'.Parcels d σ := by
  have hparcel := h.parcel r t ht
  have hnot : s.client.main.fresh ≠ some r := fun hr =>
    (hc.book.fresh r hr).2 (hc.book.running r hmoves.ne_returned)
  -- before the results a waiter keeps what `handleInputs` has made
  have hpass : ∀ {s' : System} (pc : WaiterPc), s'.client.heap = s.client.heap →
      s'.client.pc = Function.update s.client.pc r pc → s'.Parcel d σ r t pc →
      ∀ t', s'.client.heap r = some t' → s'.Parcel d σ r t' (s'.client.pc r) := by
    intro s' pc hheap hpc hnew t' ht'
    rw [hheap, ht, Option.some.injEq] at ht'
    rw [hpc, Function.update_self, ← ht']
    exact hnew
  have hset : ∀ {s' : System} (pc : WaiterPc) {u : Transaction},
      s'.client.heap = Function.update s.client.heap r (some u) →
      s'.client.pc = Function.update s.client.pc r pc → s'.Parcel d σ r u pc →
      ∀ t', s'.client.heap r = some t' → s'.Parcel d σ r t' (s'.client.pc r) := by
    intro s' pc u hheap hpc hnew t' ht'
    rw [hheap, Function.update_self, Option.some.injEq] at ht'
    rw [hpc, Function.update_self, ← ht']
    exact hnew
  have hmoves' := hmoves
  cases hmoves with
  | lockQuery hpc hquery =>
      rw [hpc] at hparcel
      exact h.waiter hc hmoves' rfl hnot rfl rfl (Or.inl rfl)
        (hpass .test rfl rfl hparcel)
  | test hpc =>
      rw [hpc] at hparcel
      refine h.waiter hc hmoves' rfl hnot rfl rfl (Or.inl rfl) (hpass _ rfl rfl ?_)
      split
      · exact hparcel
      · exact hparcel
  | query hpc hreq =>
      rw [hpc] at hparcel
      exact h.waiter hc hmoves' rfl hnot rfl rfl (Or.inl rfl)
        (hpass .querying rfl rfl hparcel)
  | queried hpc hanswers hpc' =>
      rw [hpc] at hparcel
      refine h.waiter hc hmoves' rfl hnot rfl rfl (Or.inr (by rw [hpc]; trivial))
        (hpass _ rfl rfl ?_)
      rw [hpc']
      split
      · exact hparcel
      · exact hparcel
  | lockReq hpc hreq =>
      rw [hpc] at hparcel
      exact h.waiter hc hmoves' rfl hnot rfl rfl (Or.inl rfl)
        (hpass .locked rfl rfl hparcel)
  | unlockQuery hpc =>
      rw [hpc] at hparcel
      exact h.waiter hc hmoves' rfl hnot rfl rfl (Or.inl rfl)
        (hpass .ask rfl rfl hparcel)
  | wait hpc =>
      rw [hpc] at hparcel
      obtain ⟨t₁, hloaded, hbears⟩ := hparcel
      exact h.waiter hc hmoves' rfl hnot rfl rfl (Or.inl rfl)
        (hpass .asking rfl rfl ⟨t₁, hloaded, hbears, Or.inl (hsilent hpc)⟩)
  | @recvStatus status answers hpc hanswers =>
      rw [hpc] at hparcel
      obtain ⟨t₁, hloaded, hbears, hcl⟩ := hparcel
      rw [hanswers] at hcl
      rcases hcl with hnil | ⟨status', b, hcons, hruns⟩
      · cases hnil
      · obtain ⟨hstatus, hrest⟩ := List.cons.inj hcons
        obtain rfl := Answer.status.inj hstatus
        refine h.waiter hc hmoves' rfl hnot rfl rfl (Or.inr (by rw [hpc]; trivial))
          (hpass _ rfl rfl ⟨t₁, b, hloaded, hbears, ?_, hruns⟩)
        exact (congrArg List.tail hanswers).trans hrest
  | @setStatus status hpc =>
      rw [hpc] at hparcel
      obtain ⟨t₁, b, hloaded, hbears, hcl, hruns⟩ := hparcel
      exact h.waiter hc hmoves' rfl hnot rfl rfl (Or.inl rfl)
        (hset .fromAie rfl rfl ⟨t₁, b, hloaded, hbears.setStatus status, hcl, hruns⟩)
  | @recvFromAie from_aie_ptr answers hpc hanswers =>
      rw [hpc] at hparcel
      obtain ⟨t₁, b, hloaded, hbears, hcl, hruns⟩ := hparcel
      obtain ⟨hfrom, hrest⟩ := List.cons.inj (hanswers.symm.trans hcl)
      obtain rfl := Answer.from_aie_ptr.inj hfrom
      refine h.waiter hc hmoves' rfl hnot rfl rfl (Or.inr (by rw [hpc]; trivial))
        (hset .perf rfl rfl ⟨t₁, b, hloaded, hbears.setFromAie _, ?_, hruns⟩)
      exact (congrArg List.tail hanswers).trans hrest
  | @recvPerf perf_ptr answers hpc hanswers =>
      rw [hpc] at hparcel
      obtain ⟨t₁, b, hloaded, hbears, hcl, hruns⟩ := hparcel
      obtain ⟨hperf, -⟩ := List.cons.inj (hanswers.symm.trans hcl)
      obtain rfl := Answer.perf_ptr.inj hperf
      exact h.waiter hc hmoves' rfl hnot rfl rfl (Or.inr (by rw [hpc]; trivial))
        (hset .unlock rfl rfl ⟨t₁, b, hloaded, hbears.setPerf _, hruns⟩)
  | unlockReq hpc =>
      rw [hpc] at hparcel
      exact h.waiter hc hmoves' rfl hnot rfl rfl (Or.inl rfl)
        (hpass .outputs rfl rfl hparcel)
  | @handleOutputs t' hpc ht' =>
      rw [hpc] at hparcel
      obtain ⟨t₁, b, hloaded, hbears, hruns⟩ := hparcel
      refine h.waiter hc hmoves' rfl hnot rfl rfl (Or.inl rfl)
        (hset .returned rfl rfl fun hdone => ?_)
      rw [handleOutputs_status_eq ht'] at hdone
      exact hloaded.handed (hruns hdone) hbears ht'
  | throws hpc hgone => exact absurd trivial hover

/-! ### Steps of the server -/

theorem Parcels.server (h : s.Parcels d σ) (hclient : s'.client = s.client)
    (hparcel : ∀ r t, s.client.heap r = some t → s.Parcel d σ r t (s.client.pc r) →
      s'.Parcel d σ r t (s.client.pc r)) : s'.Parcels d σ := by
  refine ⟨?_, ?_, fun r t hr ht => ?_, fun r t ht => ?_⟩
  · rw [hclient, h.setup_eq]
  · rw [hclient, h.max_eq]
  · rw [hclient] at hr ht
    exact h.fresh r t hr ht
  · rw [hclient] at ht ⊢
    exact hparcel r t ht (h.parcel r t ht)

/-- While another answer is about to be given, nobody waits for results. -/
theorem Wire.no_receives (h : s.Wire) (hl : s.client.Locks) {m : Request} {rest : List Request}
    {kind : AnswerKind} (hserver : s.toServer = m :: rest) (hm : m.kinds = [kind])
    (hkind : kind ≠ .perf_ptr) (r : Ref) : ¬ (s.client.pc r).Receives := by
  intro hrec
  have hreq := (hl.waiter r).mpr (WaiterPc.holds_of_receives hrec)
  have hnil : rest = [] := h.rest_eq_nil hserver (by simp [hm])
  have hdual := h.dual
  rw [due, due_of_waiter hreq, hserver, hnil, List.flatMap_singleton, hm] at hdual
  have hlast := congrArg List.getLast? hdual
  rw [List.getLast?_concat] at hlast
  cases hpc : s.client.pc r with
  | asking | received | fromAie | perf =>
      rw [hpc] at hlast
      exact hkind (Option.some.inj hlast)
  | _ =>
      rw [hpc] at hrec
      exact hrec

/-- The results that are sent are what a run of the kernel makes of the waiter's own transaction. -/
theorem Parcels.joined (h : s.Parcels d σ) {gone old rest : List Ref}
    (hqueue : s.Queue gone old rest)
    (hreceipt : s.Receipt) (hwire : s.Wire) (hcarries : s.Carries) (hc : s.client.Inv)
    (hm : s.server.Inv) (hworked : s.server.Worked d σ.given) (hover : ¬ s.client.main.Over)
    {a : Addr} (hsession : s.server.session = .joining a) (hpc : s.server.pc a = .returned)
    (ht : s.server.heap a = some t) :
    ({ s with
      server := s.server.answer a t
      toClient := s.toClient ++ [.status t.status, .from_aie_ptr t.from_aie_ptr,
        .perf_ptr t.perf_ptr] } : System).Parcels d σ := by
  obtain ⟨r, -, hasking, hempty⟩ := hwire.joining hsession
  obtain ⟨rest', threads, rfl, hthreads, hhand, hcarried, hkey⟩ :=
    hqueue.joining hreceipt hwire hc hm hover hsession hasking hempty
  refine h.server rfl fun ρ u hu hparcel => ?_
  by_cases hρ : ρ = r
  · subst hρ
    rw [hasking] at hparcel ⊢
    obtain ⟨t₁, hloaded, hbears, -⟩ := hparcel
    refine ⟨t₁, hloaded, hbears, Or.inr ⟨t.status, t.buffers, ?_, fun hdone => ?_⟩⟩
    · change s.toClient ++ _ = _
      rw [hempty]
      rfl
    · have hruns := hworked.threads a (by rw [hthreads]; exact List.mem_cons_self) t ht
      rw [hpc] at hruns
      have hcargo : u.cargo = t.cargo := by
        have heq := hcarries.eq hqueue
        rw [held, MgrServer.unserved_of_ne (by simp [hsession]), hthreads, List.map_cons,
          List.cons_append, List.cons_append, List.map_cons, List.cons.injEq, MgrServer.cargo, ht,
          MgrClient.cargo, hu] at heq
        exact (Option.some.inj heq.1).symm
      rw [MgrClient.key_of_some hu, MgrServer.key_of_some ht] at hkey
      have hsizes : t.buffers.sizes = u.buffers.sizes := (congrArg Prod.snd hkey).symm
      have hfresh : t.buffers.fresh = t₁.buffers := by
        rw [← hbears.buffers_eq]
        refine PlBuffers.fresh_eq (congrArg Prod.fst hcargo).symm
          (congrArg Prod.snd hcargo).symm hsizes ?_
        rw [hbears.buffers_eq]
        exact hloaded.fresh
      rw [← hfresh]
      exact hruns hdone
  · refine hparcel.congr fun hrec => absurd ?_ hρ
    exact eq_of_holds hc.locks (by rw [hasking]; trivial) (WaiterPc.holds_of_receives hrec)

theorem Parcels.serverMoves (h : s.Parcels d σ) (hserved : s.Served) (hlink : s.Link)
    (hcarries : s.Carries) (hworked : s.server.Worked d σ.given) (hover : ¬ s.client.main.Over)
    (hended : s'.server.session = .ended → s'.toClient = s.toClient) (hmoves : s.ServerMoves s') :
    s'.Parcels d σ := by
  have hkeep : ∀ {s' : System}, s'.client = s.client → s'.toClient = s.toClient → s'.Parcels d σ :=
    fun hclient hcl => h.server hclient fun r t _ hparcel => hparcel.congr fun _ => hcl
  have hanswer : ∀ {s' : System} {m : Request} {rest : List Request} {kind : AnswerKind},
      s'.client = s.client → s.toServer = m :: rest → m.kinds = [kind] → kind ≠ .perf_ptr →
      s'.Parcels d σ := fun hclient hserver hm hkind =>
    h.server hclient fun r t _ hparcel => hparcel.congr fun hrec =>
      absurd hrec (hserved.wire.no_receives hserved.client.locks hserver hm hkind r)
  cases hmoves with
  | ended hclient hserver => exact hkeep hclient (hended (by rw [hserver]; rfl))
  | refused hsession hserver | admitted hsession hserver | queried hsession hserver =>
      exact hanswer rfl hserver rfl AnswerKind.noConfusion
  | waits | created | received | retired | thread => exact hkeep rfl rfl
  | @other q requests hsession hserver =>
      cases q with
      | setTimeOut t => exact hkeep rfl rfl
      | _ => exact hanswer rfl hserver rfl AnswerKind.noConfusion
  | joined hsession hpc ht =>
      obtain ⟨gone, old, rest, hqueue⟩ := hlink.queue
      exact h.joined hqueue hlink.receipt hserved.wire hcarries hserved.client hserved.server
        hworked hover hsession hpc ht

/-! ### All runs -/

theorem worked_of_step (h : s.server.Worked d σ.given) (hm : s.server.Inv)
    (hstaged : Staged d σ l s)
    (hstep : lts.step l s = some s') (hsession' : s'.server.session ≠ .ended) :
    s'.server.Worked d σ.given := by
  simp only [lts] at hstep
  split at hstep
  · obtain ⟨l, toServer, server, answers, hlabel, hserver, -, hnone, hother⟩ :=
      sessionStep_eq_some hstep
    have heq : s'.server = server := by
      cases hq : s.otherRequest with
      | none => rw [hnone hq]
      | some q =>
          rw [hother q hq]
          split
          · rfl
          · cases q <;> rfl
    rw [heq] at hsession' ⊢
    exact h.session hm (ServerMoves.of_request hlabel hserver) hsession'
  · rw [lostStep_server hstep] at hsession'
    exact absurd rfl hsession'
  · next l =>
    have hcard := hstaged.device l rfl
    unfold serverStep at hstep
    split at hstep
    iterate 4
      obtain ⟨m', hserver, rfl⟩ := Option.map_eq_some_iff.mp hstep
      exact h.thread hm (by simp) hcard hserver
    cases hstep
  · replace hstep := (Option.ite_none_left_eq_some.mp hstep).2
    have hserver : s'.server = s.server := by
      split at hstep
      · obtain ⟨t, -, hmoves⟩ := waiterMoves_of_waiterStep hstep
        exact hmoves.server_eq
      · exact (mainMoves_of_mainStep hstep).server_eq
    rwa [hserver]

section Runs

variable {graphs : Nat} {monitorInterval : UInt64}

theorem worked_of_run (hrun : lts.RunIf (Staged d σ) (.new d.p.toSetup graphs monitorInterval) s)
    (hsession : s.server.session ≠ .ended) : s.server.Worked d σ.given := by
  refine hrun.invariant_of
    (I := fun s => s.server.session ≠ .ended → s.server.Worked d σ.given)
    (J := fun s => s.server.session ≠ .ended → s.Served) (fun s hs => served_of_run hs) ?_
    (fun _ => MgrServer.worked_new d σ.given d.p.toSetup) hsession
  intro l s s' hJ hI hstaged hstep hsession'
  have hsession := session_ne_of_step hstep hsession'
  exact worked_of_step (hI hsession) (hJ hsession).server hstaged hstep hsession'

structure Joint (d : Card) (σ : Story) (s : System) : Prop where
  served : s.Served
  link : s.Link
  worked : s.server.Worked d σ.given

theorem joint_of_run (hrun : lts.RunIf (Staged d σ) (.new d.p.toSetup graphs monitorInterval) s)
    (hsession : s.server.session ≠ .ended) (hover : ¬ s.client.main.Over) : s.Joint d σ :=
  ⟨served_of_run hrun hsession, link_of_run hrun hsession hover, worked_of_run hrun hsession⟩

theorem Carries.step (h : s.Carries) (hjoint : s.Joint d σ) (hjoint' : s'.Joint d σ)
    (hstep : lts.step l s = some s') (hsession' : s'.server.session ≠ .ended)
    (hover' : ¬ s'.client.main.Over) : s'.Carries := by
  have hsession := session_ne_of_step hstep hsession'
  obtain ⟨gone, old, rest, hqueue⟩ := hjoint.link.queue
  rcases step_cases hstep with hserver | ⟨-, hmain⟩ | ⟨-, r, t, ht, hwaiter⟩
  · exact h.serverMoves hjoint.served.server hjoint.worked hsession' hserver
  · exact h.mainMoves hqueue hjoint.served.client hsession hover' hjoint'.link.queue hmain
  · exact h.waiterMoves hqueue hjoint.served.client ht hsession hwaiter

theorem carries_of_run (hrun : lts.RunIf (Staged d σ) (.new d.p.toSetup graphs monitorInterval) s)
    (hsession : s.server.session ≠ .ended) (hover : ¬ s.client.main.Over) : s.Carries := by
  induction hrun with
  | refl => exact List.suffix_refl _
  | @tail s s' l hprev hstaged hstep ih =>
      have hsession' := session_ne_of_step hstep hsession
      have hover' : ¬ s.client.main.Over := fun h => hover (over_of_step h hstep)
      exact (ih hsession' hover').step (joint_of_run hprev hsession' hover')
        (joint_of_run (.tail l hprev hstaged hstep) hsession hover) hstep hsession hover

theorem parcels_new (d : Card) (σ : Story) (graphs : Nat) (monitorInterval : UInt64) :
    (new d.p.toSetup graphs monitorInterval).Parcels d σ where
  setup_eq := rfl
  max_eq := rfl
  fresh := nofun
  parcel := nofun

theorem parcels_of_run (hrun : lts.RunIf (Staged d σ) (.new d.p.toSetup graphs monitorInterval) s)
    (hover : ¬ s.client.main.Over) : s.Parcels d σ := by
  induction hrun with
  | refl => exact parcels_new d σ graphs monitorInterval
  | @tail s s' l hprev hstaged hstep ih =>
      have hover' : ¬ s.client.main.Over := fun h => hover (over_of_step h hstep)
      have hc := MgrClient.inv_of_run hprev
      have h := ih hover'
      rcases step_cases hstep with hserver | ⟨-, hmain⟩ | ⟨-, r, t, ht, hwaiter⟩
      · have hsession := hserver.session_ne
        have hjoint := joint_of_run hprev hsession hover'
        exact h.serverMoves hjoint.served hjoint.link (carries_of_run hprev hsession hover')
          hjoint.worked hover' (fun hended => toClient_of_ended hstep hended hsession) hserver
      · exact h.mainMoves hc hstaged hstep hover hmain
      · refine h.waiterMoves hc ht hover (fun hpc => ?_) hwaiter
        have hreq := (hc.locks.waiter r).mpr (by rw [hpc]; trivial)
        refine (trail_of_run hprev).eq_nil ?_
        rw [due_of_waiter hreq, hpc]
        rfl

theorem handed_of_run (hrun : lts.RunIf (Staged d σ) (.new d.p.toSetup graphs monitorInterval) s)
    (hover : ¬ s.client.main.Over) (ht : s.client.heap r = some t) (hpc : s.client.pc r = .returned)
    (hdone : t.status = .TRANSACTION_DONE) : Handed d σ r t := by
  have hparcel := (parcels_of_run hrun hover).parcel r t ht
  rw [hpc] at hparcel
  exact hparcel hdone

/-- Whatever a client does with a server and however their threads and the kernel interleave: a
transaction that its waiter has returned as done holds what the graph makes of the user's data, and
nothing else of its arguments has changed. -/
theorem fulfilled_of_run (hrun : lts.RunIf (Staged d σ) (.new d.p.toSetup graphs monitorInterval) s)
    (hover : ¬ s.client.main.Over) (ht : s.client.heap r = some t) (hpc : s.client.pc r = .returned)
    (hdone : t.status = .TRANSACTION_DONE) : Fulfilled d σ r t :=
  (handed_of_run hrun hover ht hpc hdone).fulfilled

end Runs

/-! ### A run -/

def SoleStaged (l : SystemLabel) (s : System) : Prop :=
  match l with
  | .runTestHarness _ _ _ => False
  | .server (.pl a) => s.server.pc a = .locked → ∀ t ∈ s.server.heap a, soleGiven = t.buffers
  | .server (.complete r) => s.server.fastObj.mem r = soleFound
  | _ => True

instance (l : SystemLabel) (s : System) : Decidable (SoleStaged l s) := by
  unfold SoleStaged
  split
  · infer_instance
  · infer_instance
  · infer_instance
  · infer_instance

theorem staged_of_sole (l : SystemLabel) (s : System) (h : SoleStaged l s) :
    Staged soleCard soleStory l s := by
  refine ⟨?_, ?_⟩
  · rintro umode args timeout mode rfl
    exact h.elim
  · rintro l' rfl
    refine ⟨?_, ?_⟩
    · rintro a t rfl hpc ht
      exact h hpc t ht
    · rintro r rfl
      have hmem : s.server.fastObj.mem r = soleFound := h
      rw [hmem]
      exact runs_sole

theorem staged_call (timeout : UInt32) {s : System} :
    Staged soleCard soleStory (.runTestHarness 0 soleArgs timeout) s := by
  refine ⟨?_, ?_⟩
  · rintro umode args timeout mode ⟨⟩ hmode
    obtain rfl : TestMode.FUNC_MODE = mode := Option.some.inj hmode
    exact ⟨rfl, posed_sole.congr rfl rfl⟩
  · rintro l' ⟨⟩

def soleCalls : List SystemLabel :=
  [.ask, .session 0 false, .answered, .send, .session 7 false, .session 0 false, .spawn,
    .lockQuery 0, .test 0, .server (.pl 7), .server (.pl 7), .server (.pl 7), .server (.pl 7),
    .server (.pl 7), .server (.write 0 soleFound.perf soleFound.from_aie), .server (.complete 0),
    .server (.wait 7 true), .server (.pl 7), .server (.pl 7), .query 0, .session 0 false,
    .queried 0, .lockReq 0, .unlockQuery 0, .wait 0, .session 0 false, .session 0 false,
    .recvStatus 0, .setStatus 0, .recvFromAie 0, .recvPerf 0, .unlockReq 0, .handleOutputs 0]

theorem exists_sole_call : ∃ s t, lts.RunIf (Staged soleCard soleStory)
    (.new solePlatform.toSetup 0 0) s
    ∧ s.client.main = .idle ∧ s.client.pc 0 = .returned ∧ s.client.heap 0 = some t
    ∧ t.status = .TRANSACTION_DONE ∧ t.mode = .FUNC_MODE := by
  have hcall : ∃ s ∈ lts.step (.runTestHarness 0 soleArgs 5) (new solePlatform.toSetup 0 0),
      ∃ s' ∈ (lts.restrict SoleStaged).exec soleCalls s, s'.client.main = .idle
        ∧ s'.client.pc 0 = .returned ∧ ∃ t ∈ s'.client.heap 0, t.status = .TRANSACTION_DONE
        ∧ t.mode = .FUNC_MODE := by
    decide +kernel
  obtain ⟨s, hstep, s', hexec, hidle, hpc, t, ht, hdone⟩ := hcall
  have hrun : lts.RunIf (Staged soleCard soleStory) (new solePlatform.toSetup 0 0) s' :=
    .head (staged_call 5) (Option.mem_def.mp hstep)
      ((Lts.RunIf.of_restrict (Lts.run_of_exec (Option.mem_def.mp hexec))).mono staged_of_sole)
  exact ⟨s', t, hrun, hidle, hpc, Option.mem_def.mp ht, hdone⟩

theorem fulfilled_of_run_sole : ∃ s t,
    lts.RunIf (Staged soleCard soleStory) (.new solePlatform.toSetup 0 0) s
    ∧ s.client.heap 0 = some t ∧ t.status = .TRANSACTION_DONE
    ∧ Fulfilled soleCard soleStory 0 t := by
  obtain ⟨s, t, hrun, hidle, hpc, ht, hdone, -⟩ := exists_sole_call
  exact ⟨s, t, hrun, ht, hdone, fulfilled_of_run hrun (by rw [hidle]; exact id) ht hpc hdone⟩

end System

end AieTestHarness
