import Mathlib.Data.Fintype.EquivFin
import AieTestHarness.Proof.Inflight
import AieTestHarness.Proof.Finish

/-!
# The session thread goes on

While the waiters go in turn, the request at the head of the queue can be served: a waiter asks for
the transaction whose thread is the first one, and that thread can finish.
-/

namespace AieTestHarness

theorem WaiterPc.received_of_not_early {pc : WaiterPc} (h : pc.early = false)
    (hholds : ¬ pc.Holds) :
    pc.Received := by
  cases pc <;> first | trivial | exact absurd trivial hholds

/-- How much the session thread has to do for a request, and how much of it is left. -/
def Request.weight : Request → Nat
  | .waitForTestHarness _ _ => 8
  | .runTestHarness _ => 4
  | .transaction _ _ _ _ | .queryTransactionStatus _ | .other _ => 2
  | .destroy => 1

def SessionPc.weight : SessionPc → Nat
  | .joining _ => 7
  | .admitted _ => 2
  | .created _ _ | .answered _ => 1
  | .idle | .ended => 0

namespace System

open MgrClient

variable {s s' : System} {r : Ref} {l : SystemLabel} {gone old rest : List Ref}

/-- A state that a run whose waiters go in turn leads to, before its session and its client end. -/
structure Going (s : System) : Prop where
  run : ∃ setup graphs monitorInterval, lts.RunIf InTurn (.new setup graphs monitorInterval) s
  alive : s.server.session ≠ .ended
  live : ¬ s.client.main.Over

theorem Going.served (h : s.Going) : s.Served :=
  h.run.elim fun _ h' => h'.elim fun _ h'' => h''.elim fun _ hrun => served_of_run hrun h.alive

theorem Going.link (h : s.Going) : s.Link :=
  h.run.elim fun _ h' => h'.elim fun _ h'' => h''.elim fun _ hrun => link_of_run hrun h.alive h.live

theorem Going.inflight (h : s.Going) : s.Inflight :=
  h.run.elim fun _ h' => h'.elim fun _ h'' => h''.elim fun _ hrun =>
    inflight_of_run hrun h.alive h.live

theorem Going.turn (h : s.Going) : s.client.Turn :=
  h.run.elim fun _ h' => h'.elim fun _ h'' => h''.elim fun _ hrun => turn_of_run hrun

theorem Going.trans (h : s.Going) (hrun : lts.RunIf Onward s s')
    (halive : s'.server.session ≠ .ended) (hlive : ¬ s'.client.main.Over) : s'.Going := by
  obtain ⟨setup, graphs, monitorInterval, hrun₀⟩ := h.run
  exact ⟨⟨setup, graphs, monitorInterval, hrun₀.trans (hrun.mono fun _ _ hl => hl.1)⟩, halive,
    hlive⟩

/-! ### The transaction that is next -/

/-- The results of all the transactions before this one have been received, its own have not. -/
def Next (s : System) (r : Ref) : Prop :=
  ¬ s.Answered r ∧ ∃ front back, s.client.pending_transactions = front ++ r :: back
    ∧ ∀ ρ ∈ front, s.Answered ρ

theorem Queue.rest_eq_cons (h : s.Queue gone old rest) (hnext : s.Next r) :
    ∃ back, rest = r :: back := by
  obtain ⟨hopen, front, back, hpending, hfront⟩ := hnext
  rw [h.pending_eq] at hpending
  rcases List.append_eq_append_iff.mp hpending with ⟨x, hx, hrest⟩ | ⟨x, hx, hrest⟩
  · cases x with
    | nil => exact ⟨back, by simpa using hrest⟩
    | cons ρ x =>
        exact absurd (hfront ρ (by rw [hx]; simp)) (h.rest_open ρ (by rw [hrest]; simp))
  · cases x with
    | nil => exact ⟨back, by simpa using hrest.symm⟩
    | cons ρ x =>
        obtain ⟨rfl, -⟩ := List.cons.inj hrest
        exact absurd (h.old_answered r (by rw [hx]; simp)) hopen

/-- The transaction that is next is the one whose thread is the first on the server. -/
theorem Going.exists_thread (h : s.Going) (hnext : s.Next r) (hcarried : s.carried = [])
    (hhand : s.client.hand = []) (hanswered : ∀ a, s.server.session ≠ .answered a) :
    ∃ a threads t, s.server.pl_threads = a :: threads ∧ s.server.heap a = some t
      ∧ t.trans_id = (transId r).toNat := by
  obtain ⟨gone, old, rest, hqueue⟩ := h.link.queue
  obtain ⟨back, rfl⟩ := hqueue.rest_eq_cons hnext
  have hids := (hqueue.ids h.served.client h.live hcarried hhand).2
  rw [MgrServer.unserved_of_ne hanswered] at hids
  cases hthreads : s.server.pl_threads with
  | nil =>
      rw [hthreads] at hids
      cases hids
  | cons a threads =>
      rw [hthreads, List.map_cons, List.map_cons, List.cons.injEq] at hids
      obtain ⟨t, ht, -⟩ := h.served.server.book.live a
        (h.served.server.book.mem_transactions (by rw [hthreads]; simp))
      refine ⟨a, threads, t, rfl, ht, ?_⟩
      rw [hids.1, MgrServer.idOf_of_some ht]

/-- Before the oldest transaction all have been asked for, and one that is asked for holds
`req_mtx`. -/
theorem Going.next_of_oldest (h : s.Going) (holdest : s.client.oldest = some r)
    (hreq : ∀ ρ, s.client.req_mtx = some (.waiter ρ) → ρ = r) : s.Next r := by
  obtain ⟨hearly, asked, rest, hpending, hasked⟩ := oldest_eq_some.mp holdest
  refine ⟨?_, asked, rest, hpending, fun ρ hρ => Or.inl ?_⟩
  · rintro (hreceived | ⟨hpc, -⟩)
    · cases hpc : s.client.pc r <;> rw [hpc] at hearly hreceived <;>
        first | exact hreceived | cases hearly
    · rw [hpc] at hearly
      cases hearly
  · refine WaiterPc.received_of_not_early (hasked ρ hρ) fun hholds => ?_
    have heq := hreq ρ ((h.served.client.locks.waiter ρ).mpr hholds)
    have hfalse := hasked ρ hρ
    rw [heq, hearly] at hfalse
    cases hfalse

/-- The waiter whose request is on its way. -/
theorem Going.next_of_asking (h : s.Going) (hpc : s.client.pc r = .asking) (hcl : s.toClient = []) :
    s.Next r := by
  have hc := h.served.client
  have hmem := hc.book.running r (by simp [hpc])
  obtain ⟨front, back, hpending⟩ := List.append_of_mem hmem
  have hopen : ¬ s.Answered r := by
    rintro (hreceived | ⟨-, hne⟩)
    · rw [hpc] at hreceived
      exact hreceived
    · exact hne hcl
  refine ⟨hopen, front, back, hpending, fun ρ hρ => Or.inl ?_⟩
  have hordered := h.turn.ordered
  have hnodup := hc.book.nodup
  rw [hpending] at hordered hnodup
  refine WaiterPc.received_of_not_early ?_ fun hholds => ?_
  · by_contra hearly
    have himp := (List.pairwise_append.mp hordered).2.2 ρ hρ r (by simp)
    have := himp (by simpa using hearly)
    rw [hpc] at this
    cases this
  · have heq : r = ρ := eq_of_holds hc.locks hholds (by rw [hpc]; trivial)
    exact (List.nodup_append.mp hnodup).2.2 ρ hρ r (by simp) heq.symm

/-! ### What is left to serve -/

def load (s : System) : Nat :=
  s.server.session.weight + (s.toServer.map Request.weight).sum + s.toClient.length

structure Serves (s s' : System) : Prop where
  run : lts.RunIf Onward s s'
  going : s'.Going
  client_eq : s'.client = s.client
  load_lt : s'.load < s.load

theorem Going.session (h : s.Going) (a : Addr) (fails : Bool)
    (hstep : lts.step (.session a fails) s = some s') (halive : s'.server.session ≠ .ended)
    (hload : s'.load < s.load) : Serves s s' := by
  have hclient := (serverMoves_of_sessionStep hstep).client_eq
  have hrun : lts.RunIf Onward s s' := .single (l := .session a fails) ⟨trivial, rfl⟩ hstep
  exact ⟨hrun, h.trans hrun halive (by rw [hclient]; exact h.live), hclient, hload⟩

theorem load_cons {m : Request} {rest : List Request} (hserver : s.toServer = m :: rest) :
    s.load = s.server.session.weight + (m.weight + (rest.map Request.weight).sum)
      + s.toClient.length := by
  rw [load, hserver, List.map_cons, List.sum_cons]

theorem hand_of_req (h : s.client.req_mtx ≠ some .main) (hc : s.client.Inv)
    (hover : ¬ s.client.main.Over) : s.client.hand = [] := by
  refine hand_of_not_holds fun hholds => h ((hc.locks.main ?_).mpr hholds)
  intro hmain
  rw [hmain] at hover
  exact hover trivial

/-- A waiter that queries holds `query_mtx`, so its transaction is the oldest one. -/
theorem Going.next_of_querying (h : s.Going) (hpc : s.client.pc r = .querying) : s.Next r := by
  have hlocks := h.served.client.locks
  have hreq := (hlocks.waiter r).mpr (by rw [hpc]; trivial)
  refine h.next_of_oldest (h.turn.holder r ((hlocks.query r).mpr (by rw [hpc]; trivial))) ?_
  intro ρ hρ
  rw [hreq] at hρ
  cases hρ
  rfl

theorem Going.querying_of_request (h : s.Going) {id : UInt32} {rest : List Request}
    (hserver : s.toServer = .queryTransactionStatus id :: rest) :
    ∃ r, s.client.pc r = .querying := by
  have hs := h.served
  have hmem : AnswerKind.status ∈ s.client.due := by
    rw [← hs.wire.dual, due, hserver]
    simp [Request.kinds]
  have hno : ∀ r, s.client.pc r ≠ .asking :=
    hs.wire.no_asking hs.client.locks hserver rfl AnswerKind.noConfusion
  cases hreq : s.client.req_mtx with
  | none =>
      rw [due_of_none hreq] at hmem
      cases hmem
  | some owner =>
      cases owner with
      | main =>
          rw [due_of_main hreq] at hmem
          cases hmain : s.client.main with
          | exchanging q k =>
              rw [hmain] at hmem
              cases q <;> simp [MainPc.due, OtherRequest.kinds] at hmem
          | _ =>
              rw [hmain] at hmem
              simp [MainPc.due] at hmem
      | waiter r =>
          rw [due_of_waiter hreq] at hmem
          refine ⟨r, ?_⟩
          cases hpc : s.client.pc r with
          | querying => rfl
          | asking => exact absurd hpc (hno r)
          | _ =>
              rw [hpc] at hmem
              simp [WaiterPc.due] at hmem

/-- A waiter asks for the transaction at the front of the queue. -/
theorem Going.exists_front (h : s.Going) (hsession : s.server.session = .idle) {id timeout : UInt32}
    {requests : List Request} (hserver : s.toServer = .waitForTestHarness id timeout :: requests) :
    ∃ a threads t, s.server.pl_threads = a :: threads ∧ s.server.heap a = some t
      ∧ id.toNat = t.trans_id := by
  have hs := h.served
  obtain ⟨r, hpc⟩ := hs.wire.asking_of_wait (hserver ▸ List.mem_cons_self)
  have hreq := (hs.client.locks.waiter r).mpr (by rw [hpc]; trivial)
  have hcl : s.toClient = [] := by
    have hdual := congrArg List.length hs.wire.dual
    rw [due_of_waiter hreq, hpc, due, hserver] at hdual
    simp only [WaiterPc.due, Request.kinds, List.flatMap_cons, List.length_append, List.length_map,
      List.length_cons, List.length_nil] at hdual
    exact List.length_eq_zero_iff.mp (by omega)
  obtain ⟨a, threads, t, hthreads, ht, hid⟩ := h.exists_thread (h.next_of_asking hpc hcl)
    (carried_eq_nil (hs.wire.free (by rw [hsession]; exact not_false)).2)
    (hand_of_req (by rw [hreq]; simp) hs.client h.live) (by simp [hsession])
  refine ⟨a, threads, t, hthreads, ht, ?_⟩
  rw [hid, h.link.receipt.request id timeout (by rw [hserver]; simp) r hpc]

/-! ### One request after the other -/

theorem Going.serve_runTestHarness (h : s.Going) (hsession : s.server.session = .idle) {n : UInt64}
    {rest : List Request} (hserver : s.toServer = .runTestHarness n :: rest) :
    ∃ s', Serves s s' := by
  have hload := load_cons hserver
  by_cases hgt : u64 (s.server.memorySize + n.toNat) > memorySizeMax
  · refine ⟨{ s with toServer := rest, toClient := s.toClient ++ [.trans_accepted false] },
      h.session 0 false ?_ h.alive ?_⟩
    · simp [lts, sessionStep, sessionLabel, hsession, hserver, MgrServer.lts, MgrServer.sessionStep,
        MgrServer.runTestHarness, hgt, replies, otherRequest]
    · rw [hload]
      simp only [load, List.length_append, List.length_singleton, Request.weight]
      omega
  · refine ⟨{ s with
        server := { s.server with session := .admitted n }
        toServer := rest
        toClient := s.toClient ++ [.trans_accepted true] },
      h.session 0 false ?_ SessionPc.noConfusion ?_⟩
    · simp [lts, sessionStep, sessionLabel, hsession, hserver, MgrServer.lts, MgrServer.sessionStep,
        MgrServer.runTestHarness, hgt, replies, otherRequest]
    · rw [hload, hsession]
      simp only [load, List.length_append, List.length_singleton, Request.weight, SessionPc.weight]
      omega

theorem Going.serve_query (h : s.Going) (hsession : s.server.session = .idle) {id : UInt32}
    {rest : List Request} (hserver : s.toServer = .queryTransactionStatus id :: rest) :
    ∃ s', Serves s s' := by
  have hs := h.served
  have hload := load_cons hserver
  obtain ⟨r, hpc⟩ := h.querying_of_request hserver
  have hreq := (hs.client.locks.waiter r).mpr (by rw [hpc]; trivial)
  have hid := h.inflight.query id (by rw [hserver]; simp) r hpc
  obtain ⟨a, threads, t, hthreads, ht, htrans⟩ := h.exists_thread (h.next_of_querying hpc)
    (carried_eq_nil (hs.wire.free (by rw [hsession]; exact not_false)).2)
    (hand_of_req (by rw [hreq]; simp) hs.client h.live) (by simp [hsession])
  have hmap : s.server.id2trans id.toNat = some a := by
    obtain ⟨t', ht', hmap⟩ := hs.server.book.live a
      (hs.server.book.mem_transactions (by rw [hthreads]; simp))
    cases ht.symm.trans ht'
    rwa [htrans, ← hid] at hmap
  refine ⟨{ s with toServer := rest, toClient := s.toClient ++ [.status t.status] },
    h.session 0 false ?_ h.alive ?_⟩
  · simp [lts, sessionStep, sessionLabel, hsession, hserver, MgrServer.lts, MgrServer.sessionStep,
      hmap, replies, statusOf, ht, otherRequest]
  · rw [hload]
    simp only [load, List.length_append, List.length_singleton, Request.weight]
    omega

theorem Going.serve_wait (h : s.Going) (hsession : s.server.session = .idle) {id timeout : UInt32}
    {rest : List Request} (hserver : s.toServer = .waitForTestHarness id timeout :: rest) :
    ∃ s', Serves s s' := by
  have hs := h.served
  have hload := load_cons hserver
  obtain ⟨a, threads, t, hthreads, ht, hid⟩ := h.exists_front hsession hserver
  refine ⟨{ s with
      server :=
        { s.server.setTrans a { t with mTimeOut := timeout.toNat } with session := .joining a }
      toServer := rest }, h.session 0 false ?_ SessionPc.noConfusion ?_⟩
  · have hqueue : s.server.transactions = a :: threads := by
      rw [hs.server.book.queue_eq, hthreads, MgrServer.pending_of_ne (by simp [hsession]),
        List.append_nil]
    simp [lts, sessionStep, sessionLabel, hsession, hserver, MgrServer.lts, MgrServer.sessionStep,
      MgrServer.waitForTestHarness, hthreads, hqueue, ht, hid, replies, otherRequest]
  · rw [hload, hsession]
    simp only [load, Request.weight, SessionPc.weight]
    omega

theorem Going.serve_other (h : s.Going) (hsession : s.server.session = .idle) {q : OtherRequest}
    {rest : List Request} (hserver : s.toServer = .other q :: rest) : ∃ s', Serves s s' := by
  have hload := load_cons hserver
  have hinterval : ∀ t, q = .setTimeOut t → t ≠ 0 := by
    rintro t rfl rfl
    exact h.inflight.interval.1 (by rw [hserver]; simp)
  refine ⟨{ s with toServer := rest }.serveOther q, h.session 0 false ?_ ?_ ?_⟩
  · cases q with
    | setTimeOut t =>
        simp [lts, sessionStep, sessionLabel, hsession, hserver, MgrServer.lts,
          MgrServer.sessionStep, hinterval t rfl, replies, otherRequest, serveOther]
    | _ =>
        simp [lts, sessionStep, sessionLabel, hsession, hserver, MgrServer.lts,
          MgrServer.sessionStep, replies, otherRequest, serveOther]
  · cases q <;> exact h.alive
  · rw [hload]
    cases q <;>
      simp only [load, serveOther, List.length_append, List.length_singleton, Request.weight] <;>
      omega

theorem exists_free (h : s.Inflight) : ∃ a, s.server.heap a = none := by
  obtain ⟨a, ha⟩ := Infinite.exists_notMem_finset s.server.transactions.toFinset
  refine ⟨a, Option.eq_none_iff_forall_ne_some.mpr fun t ht => ha ?_⟩
  exact List.mem_toFinset.mpr (h.heap a t ht)

theorem Going.serve_create (h : s.Going) {n : UInt64} (hsession : s.server.session = .admitted n)
    (hne : s.toServer ≠ []) : ∃ s', Serves s s' := by
  have hs := h.served
  rcases hs.wire.needs (by rw [hsession]; trivial) with ⟨-, hnil⟩ | ⟨-, m, rest, hserver, hm, -⟩
  · exact absurd hnil hne
  · cases m with
    | transaction umode id timeout q =>
        obtain ⟨⟨mode, hmode⟩, -⟩ := hs.offer.small umode id timeout q (by rw [hserver]; simp)
        have hid := h.inflight.admitted n hsession umode id timeout q (by rw [hserver]; simp)
        obtain ⟨a, ha⟩ := exists_free h.inflight
        refine ⟨{ s with server := s.server.accept a (.new id.toNat mode s.server.setup.num_channels
            s.server.setup.word_size s.server.setup.depth timeout.toNat 0) n },
          h.session a false ?_ SessionPc.noConfusion ?_⟩
        · simp [lts, sessionStep, sessionLabel, hsession, hserver, MgrServer.lts,
            MgrServer.sessionStep, ha, MgrServer.create, hmode, hid, replies, otherRequest]
          rfl
        · simp only [load, hsession, MgrServer.accept, SessionPc.weight]
          omega
    | _ => exact hm.elim

theorem Going.serve_receive (h : s.Going) {a : Addr} {n : UInt64}
    (hsession : s.server.session = .created a n) : ∃ s', Serves s s' := by
  have hs := h.served
  rcases hs.wire.needs (by rw [hsession]; trivial) with ⟨-, hnil⟩ | ⟨-, m, rest, hserver, hm, -⟩
  · exact absurd hnil (hs.wire.created a n hsession)
  · cases m with
    | transaction umode id timeout q =>
        have hload := load_cons hserver
        obtain ⟨-, hsmall⟩ := hs.offer.small umode id timeout q (by rw [hserver]; simp)
        have hmem : a ∈ s.server.transactions := by
          rw [(hs.server.book.transactions_of_created hsession).1]
          simp
        obtain ⟨t, ht, -⟩ := hs.server.book.live a hmem
        have hsize := hs.offer.size_eq hsession hserver ht
        refine ⟨{ s with server := s.server.spawn a (q.fill t), toServer := rest },
          h.session 0 false ?_ SessionPc.noConfusion ?_⟩
        · simp [lts, sessionStep, sessionLabel, hsession, hserver, MgrServer.lts,
            MgrServer.sessionStep, ht, MgrServer.receive, hsmall, hsize, replies, otherRequest]
          rw [MgrServer.spawn, hsize]
        · rw [hload, hsession]
          simp only [load, MgrServer.spawn, Request.weight, SessionPc.weight]
          omega
    | _ => exact hm.elim

theorem runIf_of_thread {m : MgrServer} (hrun : MgrServer.lts.RunIf MgrServer.OfThread s.server m) :
    lts.RunIf Onward s { s with server := m } := by
  induction hrun with
  | refl => exact .refl
  | @tail m m' l _ hl hstep ih =>
      refine .tail (.server l) ih ⟨trivial, rfl⟩ ?_
      rcases hl with ⟨a, rfl⟩ | ⟨a, done, rfl⟩ | ⟨r, rfl⟩ | ⟨r, perf, from_aie, rfl⟩ <;>
        simp [lts, serverStep, hstep]

theorem Going.finish (h : s.Going) {a : Addr} (hhead : s.server.pl_threads.head? = some a) :
    ∃ m, lts.RunIf Onward s { s with server := m } ∧ ({ s with server := m } : System).Going
      ∧ MgrServer.Driven s.server a m ∧ m.pc a = .returned := by
  obtain ⟨m, hrun, hdriven, hpc⟩ := h.served.server.exists_returned h.alive hhead
  have hlift := runIf_of_thread hrun
  exact ⟨m, hlift, h.trans hlift hdriven.session h.live, hdriven, hpc⟩

theorem Going.serve_join (h : s.Going) {a : Addr} (hsession : s.server.session = .joining a) :
    ∃ s', Serves s s' := by
  have hhead : s.server.pl_threads.head? = some a := by
    have hok := h.served.server.book.session_ok
    rwa [hsession] at hok
  obtain ⟨m, hrun, hgoing, hdriven, hpc⟩ := h.finish hhead
  have hjoining : m.session = .joining a := hdriven.frame.session_eq.trans hsession
  obtain ⟨t, ht⟩ := hdriven.heap
  let joined : System := { s with
    server := m.answer a t
    toClient := s.toClient ++
      [.status t.status, .from_aie_ptr t.from_aie_ptr, .perf_ptr t.perf_ptr] }
  have hstep : lts.step (.session 0 false) { s with server := m } = some joined := by
    simp [lts, sessionStep, sessionLabel, hjoining, MgrServer.lts, MgrServer.sessionStep, hpc, ht,
      replies, otherRequest, joined]
  have hlt : joined.load < s.load := by
    simp only [joined, load, hsession, MgrServer.answer, SessionPc.weight, List.length_append,
      List.length_cons, List.length_nil]
    omega
  have hsame : ({ s with server := m } : System).load = s.load := by
    simp only [load, hjoining, hsession]
  have hserves := hgoing.session 0 false hstep SessionPc.noConfusion (hsame ▸ hlt)
  exact ⟨joined, hrun.trans hserves.run, hserves.going, rfl, hlt⟩

theorem Going.serve_retire (h : s.Going) {a : Addr} (hsession : s.server.session = .answered a) :
    ∃ s', Serves s s' := by
  have hs := h.served
  have hok := hs.server.book.session_ok
  rw [hsession] at hok
  obtain ⟨t, ht, -⟩ := hs.server.book.live a
    (hs.server.book.mem_transactions (List.mem_of_mem_head? hok.1))
  refine ⟨{ s with server := s.server.retire a t }, h.session 0 false ?_ SessionPc.noConfusion ?_⟩
  · simp [lts, sessionStep, sessionLabel, hsession, MgrServer.lts, MgrServer.sessionStep, ht,
      replies, otherRequest]
  · simp only [load, hsession, MgrServer.retire, SessionPc.weight]
    omega

def Busy (s : System) : Prop :=
  s.toServer ≠ [] ∨ (∃ a, s.server.session = .joining a) ∨ ∃ a, s.server.session = .answered a

theorem Busy.toServer_ne (h : s.Busy) (hjoining : ∀ a, s.server.session ≠ .joining a)
    (hanswered : ∀ a, s.server.session ≠ .answered a) : s.toServer ≠ [] := by
  rcases h with hne | ⟨a, ha⟩ | ⟨a, ha⟩
  · exact hne
  · exact absurd ha (hjoining a)
  · exact absurd ha (hanswered a)

theorem Going.exists_serves (h : s.Going) (hbusy : s.Busy) : ∃ s', Serves s s' := by
  have hs := h.served
  cases hsession : s.server.session with
  | joining a => exact h.serve_join hsession
  | answered a => exact h.serve_retire hsession
  | created a n => exact h.serve_receive hsession
  | ended => exact absurd hsession h.alive
  | admitted n =>
      refine h.serve_create hsession (hbusy.toServer_ne ?_ ?_)
      · simp [hsession]
      · simp [hsession]
  | idle =>
      cases hserver : s.toServer with
      | nil => exact absurd hserver (hbusy.toServer_ne (by simp [hsession]) (by simp [hsession]))
      | cons m rest =>
          cases m with
          | runTestHarness n => exact h.serve_runTestHarness hsession hserver
          | transaction umode id timeout q =>
              refine absurd trivial ((hs.wire.free (by rw [hsession]; exact not_false)).2
                (.transaction umode id timeout q) ?_)
              rw [hserver]
              exact List.mem_cons_self
          | queryTransactionStatus id => exact h.serve_query hsession hserver
          | waitForTestHarness id timeout => exact h.serve_wait hsession hserver
          | other q => exact h.serve_other hsession hserver
          | destroy => exact absurd (by rw [hserver]; exact List.mem_cons_self) h.inflight.destroy

end System

end AieTestHarness
