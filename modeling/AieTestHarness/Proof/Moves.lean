import AieTestHarness.Proof.Calls
import AieTestHarness.Proof.Session
import AieTestHarness.System

/-!
# What a step can do

Each statement of the main thread, of a waiter and of the session thread with its guard and the
state it leads to. Everything proved about client and server is read off these cases.
-/

namespace AieTestHarness

namespace System

variable {s s' : System}

inductive MainMoves (s : System) : System → Prop where
  /-- `runTestHarness`, where it gets as far as its transaction. -/
  | created {mode : TestMode} {timeout : UInt32} {t : Transaction} {main : MainPc}
      (hmain : s.client.main = .idle) (hmade : MgrClient.Made s.client.created s.client.setup t)
      (hmain' : main = .idle
        ∨ main = .sizing s.client.created s.client.pending_transactions t.getMemoryUsage
          ∧ t.getMemoryUsage ≤ s.client.max_memory_usage
          ∧ ((s.client.create mode timeout).setTrans s.client.created t).total < 2 ^ 64) :
      MainMoves s (s.withClient
        (((s.client.create mode timeout).setTrans s.client.created t).goto main))
  /-- The other calls, up to their exchange, and `waitForRes` behind its loop. -/
  | goto {main : MainPc} (hmain : s.client.main = .idle ∨ ∃ w, s.client.main = .loop w)
      (hcalm : main.Calm) : MainMoves s (s.withClient (s.client.goto main))
  | size {r ρ : Ref} {rest : List Ref} {memorySize : Nat}
      (hmain : s.client.main = .sizing r (ρ :: rest) memorySize) :
      MainMoves s (s.withClient (s.client.size r ρ rest memorySize))
  | ask {r : Ref} {memorySize : Nat} (hmain : s.client.main = .sizing r [] memorySize)
      (hreq : s.client.req_mtx = none) :
      MainMoves s ((s.withClient ((s.client.lockReq .main).goto (.asking r memorySize))).send
        (.runTestHarness (UInt64.ofNat (s.client.usage r))))
  | answered {r : Ref} {memorySize : Nat} {b : Bool} {answers : List Answer}
      (hmain : s.client.main = .asking r memorySize)
      (hanswers : s.toClient = .trans_accepted b :: answers) :
      MainMoves s (s.withClient (s.client.answered r b)).taken
  | send {r : Ref} {t : Transaction} (hmain : s.client.main = .accepted r)
      (ht : s.client.heap r = some t) :
      MainMoves s ((s.withClient (s.client.goto (.sent r))).send (MgrClient.payload t))
  | spawn {r : Ref} {t : Transaction} (hmain : s.client.main = .sent r)
      (ht : s.client.heap r = some t) : MainMoves s (s.withClient (s.client.spawn r t))
  | request {q : OtherRequest} {k : After} (hmain : s.client.main = .exchange q k)
      (hreq : s.client.req_mtx = none) :
      MainMoves s ((s.withClient ((s.client.lockReq .main).goto (.exchanging q k))).send (.other q))
  | unanswered {t : UInt64} {k : After} {main : MainPc}
      (hmain : s.client.main = .exchanging (.setTimeOut t) k) (hcalm : main.Calm) :
      MainMoves s (s.withClient (s.client.unlockReq.goto main))
  | exchanged {q : OtherRequest} {k : After} {answer : Answer} {answers : List Answer}
      {main : MainPc} {v : List Bool} (hmain : s.client.main = .exchanging q k)
      (hanswers : s.toClient = answer :: answers)
      (hq : (q = .getTimeOut ∧ ∃ t, answer = .timeout_seconds t)
        ∨ ((∃ g_idx iters, q = .runAIEGraph g_idx iters) ∨ ∃ t, q = .waitForGraph t)
          ∧ ∃ v, answer = .graph_started v) (hcalm : main.Calm) :
      MainMoves s
        (s.withClient ({ s.client.unlockReq with graph_started := v }.goto main)).taken
  | fails (hmain : (∃ r n, s.client.main = .asking r n) ∨ (∃ r, s.client.main = .accepted r)
        ∨ ∃ q k, s.client.main = .exchanging q k) (hgone : s.Gone) :
      MainMoves s (s.withClient (s.client.goto .idle).unlockReq)
  | setTimeOut {w : WaitForRes} {r : Ref} {rest : List Ref} {t : Transaction}
      (hmain : s.client.main = .loop w) (hpending : s.client.pending_transactions = r :: rest)
      (ht : s.client.heap r = some t) : MainMoves s (s.withClient (s.client.setTimeOut w r t))
  | join {r : Ref} {w : WaitForRes} {main : MainPc} (hmain : s.client.main = .joining r w)
      (hpc : s.client.pc r = .returned) (hcalm : main.Calm) :
      MainMoves s (s.withClient (s.client.pop r main))
  | destroy (hmain : s.client.main = .idle) (hreq : s.client.req_mtx = none) :
      MainMoves s ((s.withClient (s.client.destroy.lockReq .main)).send .destroy)
  | release (hmain : s.client.main = .deleted) : MainMoves s (s.withClient s.client.release)

inductive WaiterMoves (s : System) (r : Ref) (t : Transaction) : System → Prop where
  | lockQuery (hpc : s.client.pc r = .start) (hquery : s.client.query_mtx = none) :
      WaiterMoves s r t (s.withClient { s.client.waiterGoto r .test with query_mtx := some r })
  | test (hpc : s.client.pc r = .test) :
      WaiterMoves s r t
        (s.withClient (s.client.waiterGoto r (if t.mTimeOut = 0 then .query else .leave)))
  | query (hpc : s.client.pc r = .query) (hreq : s.client.req_mtx = none) :
      WaiterMoves s r t ((s.withClient ((s.client.lockReq (.waiter r)).waiterGoto r .querying)).send
        (.queryTransactionStatus (UInt32.ofNat t.trans_id)))
  | queried {status : TransactionStatus} {answers : List Answer} {pc : WaiterPc}
      (hpc : s.client.pc r = .querying) (hanswers : s.toClient = .status status :: answers)
      (hpc' : pc = if status = .TRANSACTION_DONE ∨ status = .TRANSACTION_TIMEOUT then .leave
        else .test) :
      WaiterMoves s r t (s.withClient (s.client.unlockReq.waiterGoto r pc)).taken
  | lockReq (hpc : s.client.pc r = .leave) (hreq : s.client.req_mtx = none) :
      WaiterMoves s r t (s.withClient ((s.client.lockReq (.waiter r)).waiterGoto r .locked))
  | unlockQuery (hpc : s.client.pc r = .locked) :
      WaiterMoves s r t (s.withClient { s.client.waiterGoto r .ask with query_mtx := none })
  | wait (hpc : s.client.pc r = .ask) :
      WaiterMoves s r t ((s.withClient (s.client.waiterGoto r .asking)).send
        (.waitForTestHarness (UInt32.ofNat t.trans_id) (UInt32.ofNat t.mTimeOut)))
  | recvStatus {status : TransactionStatus} {answers : List Answer}
      (hpc : s.client.pc r = .asking) (hanswers : s.toClient = .status status :: answers) :
      WaiterMoves s r t (s.withClient (s.client.waiterGoto r (.received status))).taken
  | setStatus {status : TransactionStatus} (hpc : s.client.pc r = .received status) :
      WaiterMoves s r t
        (s.withClient ((s.client.setTrans r { t with status }).waiterGoto r .fromAie))
  | recvFromAie {from_aie_ptr : List UInt8} {answers : List Answer} (hpc : s.client.pc r = .fromAie)
      (hanswers : s.toClient = .from_aie_ptr from_aie_ptr :: answers) :
      WaiterMoves s r t
        (s.withClient ((s.client.setTrans r { t with from_aie_ptr }).waiterGoto r .perf)).taken
  | recvPerf {perf_ptr : List Nat} {answers : List Answer} (hpc : s.client.pc r = .perf)
      (hanswers : s.toClient = .perf_ptr perf_ptr :: answers) :
      WaiterMoves s r t
        (s.withClient ((s.client.setTrans r { t with perf_ptr }).waiterGoto r .unlock)).taken
  | unlockReq (hpc : s.client.pc r = .unlock) :
      WaiterMoves s r t (s.withClient (s.client.unlockReq.waiterGoto r .outputs))
  | handleOutputs {t' : Transaction} (hpc : s.client.pc r = .outputs)
      (ht' : t.handleOutputs = .ok t') :
      WaiterMoves s r t (s.withClient ((s.client.setTrans r t').waiterGoto r .returned))
  | throws (hpc : s.client.pc r = .querying ∨ s.client.pc r = .asking ∨ s.client.pc r = .fromAie
        ∨ s.client.pc r = .perf) (hgone : s.Gone) :
      WaiterMoves s r t (s.withClient (s.client.goto .terminated))

theorem mainMoves_of_call {l : SystemLabel} {c : MgrClient} (hmain : s.client.main = .idle)
    (h : s.call l = some c) : s.MainMoves (s.withClient c) := by
  have hgoto : ∀ {main : MainPc}, main.Calm → s.MainMoves (s.withClient (s.client.goto main)) :=
    fun hcalm => .goto (Or.inl hmain) hcalm
  cases l <;> simp only [call, Option.some.injEq, reduceCtorEq] at h <;> subst h
  case runTestHarness umode args timeout =>
    rcases s.client.runTestHarness_cases umode args timeout
      with heq | ⟨mode, t, main, hmade, heq, hmain'⟩
    · have hidle := hgoto (show MainPc.Calm .idle from trivial)
      rw [MgrClient.goto, ← hmain] at hidle
      rwa [heq]
    · rw [heq]
      exact .created hmain hmade (hmain'.imp (fun h => h.trans hmain) id)
  case runAIEGraph g_idx iters =>
    obtain ⟨main, hcalm, heq⟩ := s.client.runAIEGraph_calm hmain g_idx iters
    rw [heq]
    exact hgoto hcalm
  case waitForRes timeout_millisec num_trans => exact hgoto OtherRequest.noConfusion
  case getServerTimeOut => exact hgoto OtherRequest.noConfusion
  case setServerTimeOut t =>
    obtain ⟨main, hcalm, heq⟩ := s.client.setServerTimeOut_calm t .done
    rw [heq]
    exact hgoto hcalm

theorem mainMoves_of_runStep {l : SystemLabel} (h : s.runStep l = some s') : s.MainMoves s' := by
  cases l <;> simp only [runStep, reduceCtorEq] at h
  case size =>
    split at h
    · rename_i hmain
      cases h
      exact .size hmain
    · cases h
  case ask =>
    split at h
    · rename_i hmain
      rw [Option.ite_none_right_eq_some] at h
      obtain ⟨hreq, h⟩ := h
      cases h
      exact .ask hmain hreq
    · cases h
  case answered =>
    split at h
    · rename_i hmain hanswers
      cases h
      exact .answered hmain hanswers
    · cases h
  case send =>
    split at h
    · rename_i hmain
      obtain ⟨t, ht, rfl⟩ := Option.map_eq_some_iff.mp h
      exact .send hmain ht
    · cases h
  case spawn =>
    split at h
    · rename_i hmain
      obtain ⟨t, ht, rfl⟩ := Option.map_eq_some_iff.mp h
      exact .spawn hmain ht
    · cases h

theorem mainMoves_of_exchangeStep {l : SystemLabel} (h : s.exchangeStep l = some s') :
    s.MainMoves s' := by
  cases l <;> simp only [exchangeStep, reduceCtorEq] at h
  case request =>
    split at h
    · rename_i hmain
      rw [Option.ite_none_right_eq_some] at h
      obtain ⟨hreq, h⟩ := h
      cases h
      exact .request hmain hreq
    · cases h
  case exchanged =>
    split at h
    · rename_i t k hmain
      cases h
      obtain ⟨main, hcalm, heq⟩ := s.client.unlockReq.resume_calm 0 k
      rw [heq]
      exact .unanswered hmain hcalm
    · rename_i q k _ hmain
      split at h
      · rename_i answer answers hanswers
        obtain ⟨c, hc, rfl⟩ := Option.map_eq_some_iff.mp h
        have hresume : ∀ v t, c = { s.client.unlockReq with graph_started := v }.resume t k →
            ((q = .getTimeOut ∧ ∃ t, answer = .timeout_seconds t)
              ∨ ((∃ g_idx iters, q = .runAIEGraph g_idx iters) ∨ ∃ t, q = .waitForGraph t)
                ∧ ∃ v, answer = .graph_started v) → s.MainMoves (s.withClient c).taken := by
          intro v t hc hq
          obtain ⟨main, hcalm, heq⟩ :=
            MgrClient.resume_calm { s.client.unlockReq with graph_started := v } t k
          rw [hc, heq]
          exact .exchanged hmain hanswers hq hcalm
        cases q <;> cases answer <;> simp only [MgrClient.exchanged, reduceCtorEq] at hc
        · exact hresume _ 0 (Option.some.inj hc).symm
            (Or.inr ⟨Or.inl ⟨_, _, rfl⟩, _, rfl⟩)
        · exact hresume _ 0 (Option.some.inj hc).symm (Or.inr ⟨Or.inr ⟨_, rfl⟩, _, rfl⟩)
        · exact hresume s.client.graph_started _ (Option.some.inj hc).symm
            (Or.inl ⟨rfl, _, rfl⟩)
      · cases h
    · cases h
  case fails =>
    split at h <;> rename_i hmain
    · rw [Option.ite_none_right_eq_some] at h
      obtain ⟨hgone, h⟩ := h
      cases h
      exact .fails (Or.inl ⟨_, _, hmain⟩) hgone
    · rw [Option.ite_none_right_eq_some] at h
      obtain ⟨hgone, h⟩ := h
      cases h
      exact .fails (Or.inr (Or.inl ⟨_, hmain⟩)) hgone
    · rw [Option.ite_none_right_eq_some] at h
      obtain ⟨hgone, h⟩ := h
      cases h
      exact .fails (Or.inr (Or.inr ⟨_, _, hmain⟩)) hgone
    · cases h

theorem mainMoves_of_waitStep {l : SystemLabel} (h : s.waitStep l = some s') : s.MainMoves s' := by
  cases l <;> simp only [waitStep, reduceCtorEq] at h
  case destroy =>
    rw [Option.ite_none_right_eq_some] at h
    obtain ⟨⟨hmain, hreq⟩, h⟩ := h
    cases h
    exact .destroy hmain hreq
  case loop =>
    split at h
    · rename_i w hmain
      split at h
      · cases h
        obtain ⟨main, hcalm, heq⟩ := s.client.leaveLoop_calm w
        rw [heq]
        exact .goto (Or.inr ⟨w, hmain⟩) hcalm
      · rename_i hpending
        obtain ⟨t, ht, rfl⟩ := Option.map_eq_some_iff.mp h
        exact .setTimeOut hmain hpending ht
    · cases h
  case join =>
    split at h
    · rename_i r w hmain
      rw [Option.ite_none_right_eq_some] at h
      obtain ⟨hpc, h⟩ := h
      cases h
      obtain ⟨main, hcalm, heq⟩ := s.client.join_calm w r
      rw [heq]
      exact .join hmain hpc hcalm
    · cases h
  case release =>
    rw [Option.ite_none_right_eq_some] at h
    obtain ⟨hmain, h⟩ := h
    cases h
    exact .release hmain

theorem mainMoves_of_mainStep {l : SystemLabel} (h : s.mainStep l = some s') : s.MainMoves s' := by
  unfold mainStep at h
  split at h
  iterate 5
    rw [Option.ite_none_right_eq_some] at h
    obtain ⟨hmain, h⟩ := h
    obtain ⟨c, hc, rfl⟩ := Option.map_eq_some_iff.mp h
    exact mainMoves_of_call hmain hc
  iterate 5 exact mainMoves_of_runStep h
  iterate 3 exact mainMoves_of_exchangeStep h
  exact mainMoves_of_waitStep h

theorem waiterMoves_of_queryStep {r : Ref} {t : Transaction} {l : SystemLabel}
    (h : s.queryStep r t l = some s') : s.WaiterMoves r t s' := by
  cases l <;> simp only [queryStep, reduceCtorEq] at h
  case lockQuery =>
    rw [Option.ite_none_right_eq_some] at h
    obtain ⟨⟨hpc, hquery⟩, h⟩ := h
    cases h
    exact .lockQuery hpc hquery
  case test =>
    rw [Option.ite_none_right_eq_some] at h
    obtain ⟨hpc, h⟩ := h
    cases h
    exact .test hpc
  case query =>
    rw [Option.ite_none_right_eq_some] at h
    obtain ⟨⟨hpc, hreq⟩, h⟩ := h
    cases h
    exact .query hpc hreq
  case queried =>
    split at h
    · rename_i hpc hanswers
      cases h
      exact .queried hpc hanswers rfl
    · cases h
  case lockReq =>
    rw [Option.ite_none_right_eq_some] at h
    obtain ⟨⟨hpc, hreq⟩, h⟩ := h
    cases h
    exact .lockReq hpc hreq
  case unlockQuery =>
    rw [Option.ite_none_right_eq_some] at h
    obtain ⟨hpc, h⟩ := h
    cases h
    exact .unlockQuery hpc
  case wait =>
    rw [Option.ite_none_right_eq_some] at h
    obtain ⟨hpc, h⟩ := h
    cases h
    exact .wait hpc

theorem waiterMoves_of_resultStep {r : Ref} {t : Transaction} {l : SystemLabel}
    (h : s.resultStep r t l = some s') : s.WaiterMoves r t s' := by
  cases l <;> simp only [resultStep, reduceCtorEq] at h
  case recvStatus =>
    split at h
    · rename_i hpc hanswers
      cases h
      exact .recvStatus hpc hanswers
    · cases h
  case setStatus =>
    split at h
    · rename_i hpc
      cases h
      exact .setStatus hpc
    · cases h
  case recvFromAie =>
    split at h
    · rename_i hpc hanswers
      cases h
      exact .recvFromAie hpc hanswers
    · cases h
  case recvPerf =>
    split at h
    · rename_i hpc hanswers
      cases h
      exact .recvPerf hpc hanswers
    · cases h
  case unlockReq =>
    rw [Option.ite_none_right_eq_some] at h
    obtain ⟨hpc, h⟩ := h
    cases h
    exact .unlockReq hpc
  case handleOutputs =>
    rw [Option.ite_none_right_eq_some] at h
    obtain ⟨hpc, h⟩ := h
    split at h
    · rename_i t' ht'
      cases h
      exact .handleOutputs hpc ht'
    · cases h
  case throws =>
    split at h <;> rename_i hpc
    iterate 4
      rw [Option.ite_none_right_eq_some] at h
      obtain ⟨hgone, h⟩ := h
      cases h
      exact .throws (by simp [hpc]) hgone
    cases h

theorem waiterMoves_of_waiterStep {r : Ref} {l : SystemLabel} (h : s.waiterStep r l = some s') :
    ∃ t, s.client.heap r = some t ∧ s.WaiterMoves r t s' := by
  unfold waiterStep at h
  split at h
  · cases h
  · rename_i t ht
    refine ⟨t, ht, ?_⟩
    split at h
    iterate 7 exact waiterMoves_of_queryStep h
    exact waiterMoves_of_resultStep h

inductive ServerMoves (s : System) : System → Prop where
  /-- The session ends, with or without a request being served. The results of a transaction are
  sent when its thread is joined. -/
  | ended {s' : System} (hclient : s'.client = s.client) (hserver : s'.server = s.server.fail)
      (hsession : s.server.session ≠ .ended) (hanswered : ∀ a, s.server.session ≠ .answered a)
      (hjoining : ∀ a, s.server.session = .joining a → s.server.pc a = .returned) : ServerMoves s s'
  | refused {trans_size : UInt64} {rest : List Request} (hsession : s.server.session = .idle)
      (hserver : s.toServer = .runTestHarness trans_size :: rest)
      (hgt : memorySizeMax < u64 (s.server.memorySize + trans_size.toNat)) :
      ServerMoves s
        { s with toServer := rest, toClient := s.toClient ++ [.trans_accepted false] }
  | admitted {trans_size : UInt64} {rest : List Request} (hsession : s.server.session = .idle)
      (hserver : s.toServer = .runTestHarness trans_size :: rest)
      (hle : u64 (s.server.memorySize + trans_size.toNat) ≤ memorySizeMax) :
      ServerMoves s
        { s with
          server := { s.server with session := .admitted trans_size }
          toServer := rest
          toClient := s.toClient ++ [.trans_accepted true] }
  | queried {trans_id : UInt32} {rest : List Request} {a : Addr} {t : Transaction}
      (hsession : s.server.session = .idle)
      (hserver : s.toServer = .queryTransactionStatus trans_id :: rest)
      (ha : s.server.id2trans trans_id.toNat = some a) (ht : s.server.heap a = some t) :
      ServerMoves s { s with toServer := rest, toClient := s.toClient ++ [.status t.status] }
  | waits {trans_id timeout : UInt32} {rest : List Request} {a : Addr} {t : Transaction}
      (hsession : s.server.session = .idle)
      (hserver : s.toServer = .waitForTestHarness trans_id timeout :: rest)
      (ha : s.server.transactions.head? = some a) (ht : s.server.heap a = some t)
      (hid : trans_id.toNat = t.trans_id) :
      ServerMoves s
        { s with
          server :=
            { s.server.setTrans a { t with mTimeOut := timeout.toNat } with session := .joining a }
          toServer := rest }
  | other {q : OtherRequest} {rest : List Request} (hsession : s.server.session = .idle)
      (hserver : s.toServer = .other q :: rest) :
      ServerMoves s ({ s with toServer := rest }.serveOther q)
  | created {a : Addr} {trans_size : UInt64} {umode : UInt8} {trans_id timeout : UInt32}
      {q : MgrServer.Payload} {rest : List Request} {mode : TestMode}
      (hsession : s.server.session = .admitted trans_size)
      (hserver : s.toServer = .transaction umode trans_id timeout q :: rest)
      (ha : s.server.heap a = none) (hid : s.server.id2trans trans_id.toNat = none) :
      ServerMoves s
        { s with server := s.server.accept a (.new trans_id.toNat mode s.server.setup.num_channels
            s.server.setup.word_size s.server.setup.depth timeout.toNat 0) trans_size }
  | received {a : Addr} {trans_size : UInt64} {umode : UInt8} {trans_id timeout : UInt32}
      {q : MgrServer.Payload} {rest : List Request} {t : Transaction}
      (hsession : s.server.session = .created a trans_size)
      (hserver : s.toServer = .transaction umode trans_id timeout q :: rest)
      (ht : s.server.heap a = some t) (hq : ¬ q.Large)
      (hsize : (q.fill t).getMemoryUsage = trans_size.toNat) :
      ServerMoves s { s with server := s.server.spawn a (q.fill t), toServer := rest }
  | joined {a : Addr} {t : Transaction} (hsession : s.server.session = .joining a)
      (hpc : s.server.pc a = .returned) (ht : s.server.heap a = some t) :
      ServerMoves s
        { s with
          server := s.server.answer a t
          toClient := s.toClient ++
            [.status t.status, .from_aie_ptr t.from_aie_ptr, .perf_ptr t.perf_ptr] }
  | retired {a : Addr} {t : Transaction} (hsession : s.server.session = .answered a)
      (ht : s.server.heap a = some t) :
      ServerMoves s { s with server := s.server.retire a t }
  | thread {l : ServerLabel} {m' : MgrServer} (hsession : s.server.session ≠ .ended)
      (hstep : MgrServer.lts.step l s.server = some m')
      (hl : (∃ a, l = .pl a) ∨ (∃ a done, l = .wait a done) ∨ (∃ r, l = .complete r)
        ∨ ∃ r perf from_aie, l = .write r perf from_aie) :
      ServerMoves s { s with server := m' }

theorem sessionStep_eq_some {a : Addr} {fails : Bool} (h : s.sessionStep a fails = some s') :
    ∃ l toServer server answers, s.sessionLabel a fails = some (l, toServer)
      ∧ MgrServer.lts.step l s.server = some server ∧ replies s.server server l = some answers
      ∧ (s.otherRequest = none →
        s' = { s with server, toServer, toClient := s.toClient ++ answers })
      ∧ ∀ q, s.otherRequest = some q → s' =
        if server.session = .ended then
          { s with server, toServer, toClient := s.toClient ++ answers }
        else ({ s with server, toServer, toClient := s.toClient ++ answers } : System).serveOther q
    := by
  simp only [sessionStep, Option.bind_eq_bind, Option.bind_eq_some_iff] at h
  obtain ⟨⟨l, toServer⟩, hlabel, server, hstep, answers, hanswers, h⟩ := h
  refine ⟨l, toServer, server, answers, hlabel, hstep, hanswers, fun hnone => ?_, fun q hq => ?_⟩
  · rw [hnone] at h
    exact (Option.some.inj h).symm
  · rw [hq] at h
    dsimp only at h
    split at h
    · rename_i hended
      rw [if_pos hended]
      exact (Option.some.inj h).symm
    · rename_i hended
      rw [if_neg hended]
      exact (Option.some.inj h).symm

theorem otherRequest_eq_none (h : ∀ q rest, s.toServer ≠ .other q :: rest) :
    s.otherRequest = none := by
  unfold otherRequest
  split
  · rename_i hserver
    exact absurd hserver (h _ _)
  · rfl

theorem otherRequest_of_ne_idle (h : s.server.session ≠ .idle) : s.otherRequest = none := by
  unfold otherRequest
  split
  · rename_i hsession _
    exact absurd hsession h
  · rfl

theorem ServerMoves.client_eq (h : s.ServerMoves s') : s'.client = s.client := by
  cases h with
  | ended hclient => exact hclient
  | @other q rest hsession hserver => cases q <;> rfl
  | _ => rfl

theorem ServerMoves.session_ne (h : s.ServerMoves s') : s.server.session ≠ .ended := by
  cases h with
  | ended _ _ hsession => exact hsession
  | thread hsession => exact hsession
  | refused hsession => rw [hsession]; exact nofun
  | admitted hsession => rw [hsession]; exact nofun
  | queried hsession => rw [hsession]; exact nofun
  | waits hsession => rw [hsession]; exact nofun
  | other hsession => rw [hsession]; exact nofun
  | created hsession => rw [hsession]; exact nofun
  | received hsession => rw [hsession]; exact nofun
  | joined hsession => rw [hsession]; exact nofun
  | retired hsession => rw [hsession]; exact nofun

theorem session_of_step {m m' : MgrServer} {l : ServerLabel}
    (h : MgrServer.lts.step l m = some m') :
    m.session ≠ .ended := by
  simp only [MgrServer.lts, Option.ite_none_left_eq_some] at h
  exact h.1

theorem ServerMoves.of_request {a : Addr} {fails : Bool} {l : ServerLabel} {server : MgrServer}
    {toServer : List Request} (hlabel : s.sessionLabel a fails = some (l, toServer))
    (hstep : MgrServer.lts.step l s.server = some server) :
    s.server.SessionMoves l server := by
  have hsession := session_of_step hstep
  unfold sessionLabel at hlabel
  split at hlabel <;> cases hlabel
  all_goals
    simp only [MgrServer.lts, hsession, if_false] at hstep
    exact MgrServer.sessionMoves_of_sessionStep hstep

theorem serverMoves_of_sessionStep {a : Addr} {fails : Bool} (h : s.sessionStep a fails = some s') :
    s.ServerMoves s' := by
  obtain ⟨l, toServer, server, answers, hlabel, hstep, hanswers, hnone, hother⟩ :=
    sessionStep_eq_some h
  have hmoves := ServerMoves.of_request hlabel hstep
  cases hmoves with
  | failed hanswered hjoining =>
      refine .ended ?_ ?_ (session_of_step hstep) hanswered fun a ha => absurd ha (hjoining a)
      · cases hq : s.otherRequest with
        | none => rw [hnone hq]
        | some q => rw [hother q hq, if_pos (by rfl)]
      · cases hq : s.otherRequest with
        | none => rw [hnone hq]
        | some q => rw [hother q hq, if_pos (by rfl)]
  | refused hsession hgt =>
      unfold sessionLabel at hlabel
      split at hlabel <;> cases hlabel
      rename_i hserver
      rw [hnone (otherRequest_eq_none (by simp [hserver]))]
      simp only [replies, hsession, ne_eq, not_true, decide_false, Option.some.injEq] at hanswers
      rw [← hanswers]
      exact .refused hsession hserver hgt
  | admitted hsession hle =>
      unfold sessionLabel at hlabel
      split at hlabel <;> cases hlabel
      rename_i hserver
      rw [hnone (otherRequest_eq_none (by simp [hserver]))]
      simp only [replies, ne_eq, reduceCtorEq, not_false_iff, decide_true, Option.some.injEq]
        at hanswers
      rw [← hanswers]
      exact .admitted hsession hserver hle
  | queried hsession hid =>
      unfold sessionLabel at hlabel
      split at hlabel <;> cases hlabel
      rename_i hserver
      rw [hnone (otherRequest_eq_none (by simp [hserver]))]
      simp only [replies, hsession, reduceCtorEq, if_false, statusOf, Option.map_eq_some_iff,
        Option.bind_eq_some_iff] at hanswers
      obtain ⟨status, ⟨b, hb, t, ht, rfl⟩, rfl⟩ := hanswers
      exact .queried hsession hserver hb ht
  | other hsession hfails =>
      have hanswers' : answers = [] := (Option.some.inj hanswers).symm
      subst hanswers'
      have hq : ∃ q rest, s.toServer = .other q :: rest ∧ toServer = rest := by
        unfold sessionLabel at hlabel
        split at hlabel <;> cases hlabel
        all_goals exact ⟨_, _, by assumption, rfl⟩
      obtain ⟨q, rest, hserver, rfl⟩ := hq
      have hq : s.otherRequest = some q := by
        rw [otherRequest, hsession, hserver]
      rw [hother q hq, if_neg (by simp [hsession])]
      simp only [List.append_nil]
      exact .other hsession hserver
  | created hsession ha hid =>
      unfold sessionLabel at hlabel
      split at hlabel <;> cases hlabel
      rename_i hserver
      rw [hnone (otherRequest_of_ne_idle (by simp [hsession]))]
      rw [← Option.some.inj hanswers, List.append_nil, ← hserver]
      exact .created hsession hserver ha hid
  | received hsession ht hq hsize =>
      unfold sessionLabel at hlabel
      split at hlabel <;> cases hlabel
      rename_i hserver
      rw [hnone (otherRequest_of_ne_idle (by simp [hsession]))]
      rw [← Option.some.inj hanswers, List.append_nil]
      exact .received hsession hserver ht hq hsize
  | waits hsession ha ht hid =>
      unfold sessionLabel at hlabel
      split at hlabel <;> cases hlabel
      rename_i hserver
      rw [hnone (otherRequest_eq_none (by simp [hserver]))]
      rw [← Option.some.inj hanswers, List.append_nil]
      exact .waits hsession hserver ha ht hid
  | joined hsession hpc ht =>
      unfold sessionLabel at hlabel
      split at hlabel <;> cases hlabel
      rw [hnone (otherRequest_of_ne_idle (by simp [hsession]))]
      simp only [replies, hsession, ht, Option.map_some, Option.some.injEq] at hanswers
      rw [← hanswers]
      exact .joined hsession hpc ht
  | retired hsession ht =>
      unfold sessionLabel at hlabel
      split at hlabel <;> cases hlabel
      rw [hnone (otherRequest_of_ne_idle (by simp [hsession]))]
      rw [← Option.some.inj hanswers, List.append_nil]
      exact .retired hsession ht

theorem serverMoves_of_serverStep {l : ServerLabel} (h : s.serverStep l = some s') :
    s.ServerMoves s' := by
  cases l <;> simp only [serverStep, reduceCtorEq] at h
  all_goals
    obtain ⟨m', hstep, rfl⟩ := Option.map_eq_some_iff.mp h
    exact .thread (session_of_step hstep) hstep (by simp)

theorem serverMoves_of_lostStep (h : s.lostStep = some s') : s.ServerMoves s' := by
  unfold lostStep at h
  split at h
  iterate 3
    rename_i hsession
    cases h
    exact .ended rfl rfl (by simp [hsession]) (by simp [hsession]) (by simp [hsession])
  · rename_i a hsession
    rw [Option.ite_none_right_eq_some] at h
    obtain ⟨hpc, h⟩ := h
    cases h
    refine .ended rfl rfl (by simp [hsession]) (by simp [hsession]) fun b hb => ?_
    cases hsession.symm.trans hb
    exact hpc
  · cases h
  · cases h

theorem step_cases {l : SystemLabel} (h : lts.step l s = some s') :
    s.ServerMoves s' ∨ (s.client.main ≠ .terminated ∧ s.MainMoves s')
      ∨ s.client.main ≠ .terminated ∧ ∃ r t, s.client.heap r = some t ∧ s.WaiterMoves r t s' := by
  simp only [lts] at h
  split at h
  · exact Or.inl (serverMoves_of_sessionStep h)
  · exact Or.inl (serverMoves_of_lostStep h)
  · exact Or.inl (serverMoves_of_serverStep h)
  · rw [Option.ite_none_left_eq_some] at h
    obtain ⟨hmain, h⟩ := h
    split at h
    · rename_i r _
      exact Or.inr (Or.inr ⟨hmain, r, waiterMoves_of_waiterStep h⟩)
    · exact Or.inr (Or.inl ⟨hmain, mainMoves_of_mainStep h⟩)

end System

end AieTestHarness
