import Mathlib.Algebra.BigOperators.Group.List.Basic
import AieTestHarness.Proof.Serving

/-!
# Every transaction can be completed

Each thread has so many statements left, and so has the session thread for what is on its way to it.
From every state in which a transaction is not complete, some run leaves less to do.
-/

namespace AieTestHarness

/-- How much of a waiter is left, with what the session thread has to do for it. -/
def WaiterPc.weight : WaiterPc → Nat
  | .start | .test | .query | .querying => 60
  | .leave => 50
  | .locked => 45
  | .ask => 40
  | .asking => 30
  | .received _ => 20
  | .fromAie => 10
  | .perf => 5
  | .unlock => 2
  | .outputs => 1
  | .returned => 0

def MainPc.weight : MainPc → Nat
  | .asking _ _ => 75
  | .accepted _ => 70
  | .sent _ => 65
  | .exchanging _ _ => 1
  | _ => 0

theorem MainPc.Calm.weight_eq {main : MainPc} (h : main.Calm) : main.weight = 0 := by
  cases main <;> first | rfl | exact h.elim

theorem sum_map_update {l : List Ref} {r : Ref} (hnodup : l.Nodup) (hmem : r ∈ l)
    (f : Ref → WaiterPc) (pc : WaiterPc) :
    (l.map fun ρ => (Function.update f r pc ρ).weight).sum + (f r).weight
      = (l.map fun ρ => (f ρ).weight).sum + pc.weight := by
  have hrest : ((l.erase r).map fun ρ => (Function.update f r pc ρ).weight)
      = (l.erase r).map fun ρ => (f ρ).weight := by
    refine List.map_congr_left fun ρ hρ => ?_
    rw [Function.update_of_ne]
    rintro rfl
    exact hnodup.not_mem_erase hρ
  rw [← List.sum_map_erase _ hmem, ← List.sum_map_erase (fun ρ => (f ρ).weight) hmem, hrest,
    Function.update_self]
  omega

namespace System

open MgrClient

variable {s s' s'' : System} {r : Ref} {l : SystemLabel}

def remaining (s : System) : Nat :=
  (s.client.pending_transactions.map fun ρ => (s.client.pc ρ).weight).sum + s.client.main.weight
    + s.load

structure Advances (s s' : System) : Prop where
  run : lts.RunIf Onward s s'
  going : s'.Going
  pending : ∀ ρ ∈ s.client.pending_transactions, ρ ∈ s'.client.pending_transactions
  remaining_lt : s'.remaining < s.remaining

theorem Serves.advances (h : Serves s s') : Advances s s' where
  run := h.run
  going := h.going
  pending := by
    rw [h.client_eq]
    exact fun _ => id
  remaining_lt := by
    rw [remaining, remaining, h.client_eq]
    exact Nat.add_lt_add_left h.load_lt _

theorem Going.waiter (h : s.Going) (hrun : lts.RunIf Onward s s')
    (hsession : s'.server.session = s.server.session) (hmain : s'.client.main = s.client.main)
    (hpending : s'.client.pending_transactions = s.client.pending_transactions) {pc : WaiterPc}
    (hret : s.client.pc r ≠ .returned) (hpc : s'.client.pc = Function.update s.client.pc r pc)
    (hlt : s'.load + pc.weight < s.load + (s.client.pc r).weight) : Advances s s' where
  run := hrun
  going := h.trans hrun (by rw [hsession]; exact h.alive) (by rw [hmain]; exact h.live)
  pending := by
    rw [hpending]
    exact fun _ => id
  remaining_lt := by
    have hbook := h.served.client.book
    have hsum := sum_map_update hbook.nodup (hbook.running r hret) s.client.pc pc
    rw [remaining, remaining, hpending, hmain, hpc]
    omega

theorem Going.main (h : s.Going) (hl : Onward l s) (hstep : lts.step l s = some s')
    (hsession : s'.server.session = s.server.session) (hlive : ¬ s'.client.main.Over)
    (hpc : s'.client.pc = s.client.pc)
    (hpending : s'.client.pending_transactions = s.client.pending_transactions)
    (hlt : s'.load + s'.client.main.weight < s.load + s.client.main.weight) : Advances s s' where
  run := .single hl hstep
  going := h.trans (.single hl hstep) (by rw [hsession]; exact h.alive) hlive
  pending := by
    rw [hpending]
    exact fun _ => id
  remaining_lt := by
    rw [remaining, remaining, hpending, hpc]
    omega

/-- Where an answer is due, it is there or the session thread has something to do. -/
theorem Wire.head_or_busy (h : s.Wire) {kind : AnswerKind} {kinds : List AnswerKind}
    (hdue : s.client.due = kind :: kinds) :
    s.Busy ∨ ∃ answer answers, s.toClient = answer :: answers ∧ answer.kind = kind := by
  have hdual := h.dual
  rw [hdue, due] at hdual
  cases hcl : s.toClient with
  | cons answer answers =>
      rw [hcl, List.map_cons, List.cons_append, List.cons_append, List.cons.injEq] at hdual
      exact Or.inr ⟨answer, answers, rfl, hdual.1⟩
  | nil =>
      left
      by_contra hbusy
      obtain ⟨hserver, hjoining, -⟩ : s.toServer = [] ∧ (∀ a, s.server.session ≠ .joining a)
          ∧ ∀ a, s.server.session ≠ .answered a := by
        simpa [Busy, not_or] using hbusy
      rw [hcl, hserver] at hdual
      cases hsession : s.server.session with
      | joining a => exact hjoining a hsession
      | _ =>
          rw [hsession] at hdual
          cases hdual

/-! ### The thread that holds `req_mtx` -/

theorem waiter_step {t : Transaction} (hlive : s.client.main ≠ .terminated)
    (ht : s.client.heap r = some t) (hl : waiterOf l = some r)
    (hstep : s.waiterStep r l = some s') :
    lts.step l s = some s' := by
  cases l <;> simp only [waiterOf, Option.some.injEq, reduceCtorEq] at hl <;> subst hl
  all_goals simp only [lts, if_neg hlive, waiterOf, hstep]

theorem load_taken {c : MgrClient} {answer : Answer} {answers : List Answer}
    (hcl : s.toClient = answer :: answers) : (s.withClient c).taken.load + 1 = s.load := by
  simp only [load, taken, withClient, hcl, List.tail_cons, List.length_cons]
  omega

theorem load_send (c : MgrClient) (m : Request) :
    ((s.withClient c).send m).load = s.load + m.weight := by
  simp only [load, send, withClient, List.map_append, List.sum_append, List.map_singleton,
    List.sum_singleton]
  omega

theorem Going.heap (h : s.Going) (hmem : r ∈ s.client.pending_transactions) :
    ∃ t, s.client.heap r = some t :=
  h.served.client.owns.heap h.live r (h.served.client.book.known r hmem)

theorem Going.ne_terminated (h : s.Going) : s.client.main ≠ .terminated := by
  intro hmain
  refine h.live ?_
  rw [hmain]
  trivial

/-- A waiter gets the answer it waits for, or that answer comes nearer. -/
theorem Going.receive (h : s.Going) (hreq : s.client.req_mtx = some (.waiter r)) {kind : AnswerKind}
    {kinds : List AnswerKind} (hdue : (s.client.pc r).due = kind :: kinds) (pc : WaiterPc)
    (hlt : pc.weight < (s.client.pc r).weight + 1)
    (hstep : ∀ answer answers, s.toClient = answer :: answers → answer.kind = kind →
      ∃ l c pc', Onward l s ∧ waiterOf l = some r ∧ s.waiterStep r l = some (s.withClient c).taken
        ∧ c.main = s.client.main ∧ c.pending_transactions = s.client.pending_transactions
        ∧ c.pc = Function.update s.client.pc r pc' ∧ pc'.weight ≤ pc.weight) :
    ∃ s', Advances s s' := by
  have hs := h.served
  rcases hs.wire.head_or_busy (by rw [due_of_waiter hreq, hdue])
    with hbusy | ⟨answer, answers, hcl, hkind⟩
  · obtain ⟨s', hserves⟩ := h.exists_serves hbusy
    exact ⟨s', hserves.advances⟩
  · obtain ⟨l, c, pc', hturn, hl, hwaiter, hmain, hpending, hpc, hle⟩ :=
      hstep answer answers hcl hkind
    have hret : s.client.pc r ≠ .returned := by
      intro hpc
      rw [hpc] at hdue
      cases hdue
    obtain ⟨t, ht⟩ := h.heap (hs.client.book.running r hret)
    have hload := load_taken (c := c) hcl
    have hrun : lts.RunIf Onward s (s.withClient c).taken :=
      .single hturn (waiter_step h.ne_terminated ht hl hwaiter)
    exact ⟨_, h.waiter hrun rfl hmain hpending hret hpc (by omega)⟩

theorem Going.waiterStep (h : s.Going) {t : Transaction} (ht : s.client.heap r = some t)
    (hturn : Onward l s) (hl : waiterOf l = some r) (hstep : s.waiterStep r l = some s')
    (hsession : s'.server.session = s.server.session) (hmain : s'.client.main = s.client.main)
    (hpending : s'.client.pending_transactions = s.client.pending_transactions) {pc : WaiterPc}
    (hret : s.client.pc r ≠ .returned) (hpc : s'.client.pc = Function.update s.client.pc r pc)
    (hlt : s'.load + pc.weight < s.load + (s.client.pc r).weight) : Advances s s' :=
  h.waiter (.single hturn (waiter_step h.ne_terminated ht hl hstep)) hsession hmain hpending hret
    hpc hlt

theorem Going.holder (h : s.Going) (hreq : s.client.req_mtx = some (.waiter r)) :
    ∃ s', Advances s s' := by
  have hholds := (h.served.client.locks.waiter r).mp hreq
  have hret : s.client.pc r ≠ .returned := by
    intro hpc
    rw [hpc] at hholds
    exact hholds
  obtain ⟨t, ht⟩ := h.heap (h.served.client.book.running r hret)
  cases hpc : s.client.pc r with
  | querying =>
      refine h.receive hreq (by rw [hpc]; rfl) .test (by rw [hpc]; decide) ?_
      intro answer answers hcl hkind
      cases answer with
      | status status =>
          refine ⟨.queried r, s.client.unlockReq.waiterGoto r (if status = .TRANSACTION_DONE
            ∨ status = .TRANSACTION_TIMEOUT then .leave else .test), _,
            ⟨trivial, rfl⟩, rfl, ?_, rfl, rfl, rfl, ?_⟩
          · simp only [System.waiterStep, ht, queryStep, hpc, hcl]
          · split <;> decide
      | _ => cases hkind
  | locked =>
      refine ⟨s.withClient { s.client.waiterGoto r .ask with query_mtx := none },
        h.waiterStep (l := .unlockQuery r) ht ⟨trivial, rfl⟩ rfl ?_ rfl rfl rfl hret rfl ?_⟩
      · simp only [System.waiterStep, ht, queryStep, hpc, if_true]
      · rw [hpc]
        exact Nat.add_lt_add_left (by decide) s.load
  | ask =>
      refine ⟨(s.withClient (s.client.waiterGoto r .asking)).send
          (.waitForTestHarness (UInt32.ofNat t.trans_id) (UInt32.ofNat t.mTimeOut)),
        h.waiterStep (l := .wait r) ht ⟨trivial, rfl⟩ rfl ?_ rfl rfl rfl hret rfl ?_⟩
      · simp only [System.waiterStep, ht, queryStep, hpc, if_true]
      · rw [hpc, load_send, Nat.add_assoc]
        exact Nat.add_lt_add_left (by simp [Request.weight, WaiterPc.weight]) s.load
  | asking =>
      refine h.receive hreq (by rw [hpc]; rfl) (.received .TRANSACTION_DONE)
        (by rw [hpc]; decide) ?_
      intro answer answers hcl hkind
      cases answer with
      | status status =>
          refine ⟨.recvStatus r, s.client.waiterGoto r (.received status), _,
            ⟨trivial, rfl⟩, rfl, ?_, rfl, rfl, rfl, Nat.le_refl _⟩
          simp only [System.waiterStep, ht, resultStep, hpc, hcl]
      | _ => cases hkind
  | received status =>
      refine ⟨s.withClient ((s.client.setTrans r { t with status }).waiterGoto r .fromAie),
        h.waiterStep (l := .setStatus r) ht ⟨trivial, rfl⟩ rfl ?_ rfl rfl rfl hret rfl ?_⟩
      · simp only [System.waiterStep, ht, resultStep, hpc]
      · rw [hpc]
        exact Nat.add_lt_add_left (by simp [WaiterPc.weight]) s.load
  | fromAie =>
      refine h.receive hreq (by rw [hpc]; rfl) .perf (by rw [hpc]; decide) ?_
      intro answer answers hcl hkind
      cases answer with
      | from_aie_ptr from_aie_ptr =>
          refine ⟨.recvFromAie r, (s.client.setTrans r { t with from_aie_ptr }).waiterGoto r .perf,
            _, ⟨trivial, rfl⟩, rfl, ?_, rfl, rfl, rfl, Nat.le_refl _⟩
          simp only [System.waiterStep, ht, resultStep, hpc, hcl]
      | _ => cases hkind
  | perf =>
      refine h.receive hreq (by rw [hpc]; rfl) .unlock (by rw [hpc]; decide) ?_
      intro answer answers hcl hkind
      cases answer with
      | perf_ptr perf_ptr =>
          refine ⟨.recvPerf r, (s.client.setTrans r { t with perf_ptr }).waiterGoto r .unlock, _,
            ⟨trivial, rfl⟩, rfl, ?_, rfl, rfl, rfl, Nat.le_refl _⟩
          simp only [System.waiterStep, ht, resultStep, hpc, hcl]
      | _ => cases hkind
  | unlock =>
      refine ⟨s.withClient (s.client.unlockReq.waiterGoto r .outputs),
        h.waiterStep (l := .unlockReq r) ht ⟨trivial, rfl⟩ rfl ?_ rfl rfl rfl hret rfl ?_⟩
      · simp only [System.waiterStep, ht, resultStep, hpc, if_true]
      · rw [hpc]
        exact Nat.add_lt_add_left (by decide) s.load
  | _ =>
      rw [hpc] at hholds
      exact hholds.elim

/-- The main thread gets the answer it waits for, or that answer comes nearer. -/
theorem Going.receiveMain (h : s.Going) (hreq : s.client.req_mtx = some .main) {kind : AnswerKind}
    (hdue : s.client.main.due = [kind])
    (hstep : ∀ answer answers, s.toClient = answer :: answers → answer.kind = kind →
      ∃ l c, Onward l s ∧ lts.step l s = some (s.withClient c).taken ∧ ¬ c.main.Over
        ∧ c.pc = s.client.pc ∧ c.pending_transactions = s.client.pending_transactions
        ∧ c.main.weight ≤ s.client.main.weight) : ∃ s', Advances s s' := by
  rcases h.served.wire.head_or_busy (by rw [due_of_main hreq, hdue])
    with hbusy | ⟨answer, answers, hcl, hkind⟩
  · obtain ⟨s', hserves⟩ := h.exists_serves hbusy
    exact ⟨s', hserves.advances⟩
  · obtain ⟨l, c, hturn, hl, hlive, hpc, hpending, hle⟩ := hstep answer answers hcl hkind
    have hload := load_taken (c := c) hcl
    have hmain : (s.withClient c).taken.client.main = c.main := rfl
    exact ⟨_, h.main hturn hl rfl hlive hpc hpending (by rw [hmain]; omega)⟩

/-- A new transaction has less left than the statement that makes it pending. -/
theorem Going.spawns (h : s.Going) (hmain : s.client.main = .sent r) : ∃ s', Advances s s' := by
  have hc := h.served.client
  obtain ⟨hlt, hfresh⟩ := hc.book.fresh r (by rw [hmain]; rfl)
  obtain ⟨t, ht⟩ := hc.owns.heap h.live r hlt
  have hrun : lts.RunIf Onward s (s.withClient (s.client.spawn r t)) := by
    refine .single (l := .spawn) ⟨trivial, rfl⟩ ?_
    simp [lts, hmain, waiterOf, mainStep, runStep, ht]
  refine ⟨_, hrun, h.trans hrun h.alive not_false, fun ρ hρ => List.mem_append_left _ hρ, ?_⟩
  have hsum : (s.client.pending_transactions.map fun ρ =>
        (Function.update s.client.pc r .start ρ).weight)
      = s.client.pending_transactions.map fun ρ => (s.client.pc ρ).weight := by
    refine List.map_congr_left fun ρ hρ => ?_
    rw [Function.update_of_ne]
    rintro rfl
    exact hfresh hρ
  change ((s.client.pending_transactions ++ [r]).map fun ρ =>
      (Function.update s.client.pc r .start ρ).weight).sum + 0 + s.load < s.remaining
  rw [List.map_append, hsum, List.sum_append, List.map_singleton, List.sum_singleton,
    Function.update_self, remaining, hmain]
  simp only [WaiterPc.weight, MainPc.weight]
  omega

theorem Going.exchanging (h : s.Going) (hreq : s.client.req_mtx = some .main) {q : OtherRequest}
    {k : After} (hmain : s.client.main = .exchanging q k) : ∃ s', Advances s s' := by
  have hresume : ∀ (v : List Bool) (t : UInt64), lts.step .exchanged s = some (s.withClient
        ({ s.client.unlockReq with graph_started := v }.resume t k)).taken →
      ∃ l c, Onward l s ∧ lts.step l s = some (s.withClient c).taken ∧ ¬ c.main.Over
        ∧ c.pc = s.client.pc ∧ c.pending_transactions = s.client.pending_transactions
        ∧ c.main.weight ≤ s.client.main.weight := by
    intro v t hstep
    obtain ⟨main, hcalm, heq⟩ := resume_calm { s.client.unlockReq with graph_started := v } t k
    rw [heq] at hstep
    refine ⟨.exchanged, _, ⟨trivial, rfl⟩, hstep, hcalm.not_over, rfl, rfl, ?_⟩
    exact (Nat.le_of_eq hcalm.weight_eq).trans (Nat.zero_le _)
  cases q with
  | setTimeOut t =>
      obtain ⟨main, hcalm, heq⟩ := resume_calm s.client.unlockReq 0 k
      refine ⟨s.withClient (s.client.unlockReq.goto main),
        h.main (l := .exchanged) ⟨trivial, rfl⟩ ?_ rfl hcalm.not_over rfl rfl ?_⟩
      · rw [← heq]
        simp [lts, hmain, waiterOf, mainStep, exchangeStep, exchanged]
      · refine Nat.add_lt_add_left ?_ s.load
        rw [hmain]
        exact lt_of_eq_of_lt hcalm.weight_eq Nat.one_pos
  | getTimeOut =>
      refine h.receiveMain hreq (by rw [hmain]; rfl) fun answer answers hcl hkind => ?_
      cases answer with
      | timeout_seconds t =>
          refine hresume s.client.graph_started t ?_
          simp [lts, hmain, waiterOf, mainStep, exchangeStep, hcl, exchanged]
          rfl
      | _ => cases hkind
  | runAIEGraph g_idx iters =>
      refine h.receiveMain hreq (by rw [hmain]; rfl) fun answer answers hcl hkind => ?_
      cases answer with
      | graph_started v =>
          refine hresume v 0 ?_
          simp [lts, hmain, waiterOf, mainStep, exchangeStep, hcl, exchanged]
      | _ => cases hkind
  | waitForGraph timeout_millisec =>
      refine h.receiveMain hreq (by rw [hmain]; rfl) fun answer answers hcl hkind => ?_
      cases answer with
      | graph_started v =>
          refine hresume v 0 ?_
          simp [lts, hmain, waiterOf, mainStep, exchangeStep, hcl, exchanged]
      | _ => cases hkind

theorem Going.mainHolds (h : s.Going) (hreq : s.client.req_mtx = some .main) :
    ∃ s', Advances s s' := by
  have hc := h.served.client
  have hholds := (hc.locks.main h.ne_terminated).mp hreq
  have hover := h.live
  have hheap : ∀ r, s.client.main.fresh = some r → ∃ t, s.client.heap r = some t :=
    fun r hr => hc.owns.heap hover r (hc.book.fresh r hr).1
  cases hmain : s.client.main with
  | asking r memorySize =>
      refine h.receiveMain hreq (by rw [hmain]; rfl) ?_
      intro answer answers hcl hkind
      cases answer with
      | trans_accepted b =>
          refine ⟨.answered, s.client.answered r b, ⟨trivial, rfl⟩, ?_, ?_⟩
          · simp only [lts, hmain, waiterOf, mainStep, runStep, hcl]
            simp
          · cases b <;> simp [answered, goto, unlockReq, MainPc.Over, MainPc.weight, hmain]
      | _ => cases hkind
  | accepted r =>
      obtain ⟨t, ht⟩ := hheap r (by rw [hmain]; rfl)
      refine ⟨(s.withClient (s.client.goto (.sent r))).send (payload t),
        h.main (l := .send) ⟨trivial, rfl⟩ ?_ rfl not_false rfl rfl ?_⟩
      · simp [lts, hmain, waiterOf, mainStep, runStep, ht]
      · rw [hmain, load_send, Nat.add_assoc]
        exact Nat.add_lt_add_left
          (by simp [payload, Request.weight, MainPc.weight, send, withClient, goto]) s.load
  | sent r => exact h.spawns hmain
  | exchanging q k => exact h.exchanging hreq hmain
  | _ =>
      rw [hmain] at hholds hover
      first | exact hholds.elim | exact absurd trivial hover

/-! ### No exchange is under way -/

/-- The results of the transaction have been handed out, or that is all that fails. -/
def Completed (s : System) (r : Ref) : Prop :=
  s.client.pc r = .returned ∨ s.client.pc r = .outputs
    ∧ ∀ t t', s.client.heap r = some t → t.handleOutputs ≠ .ok t'

structure Resting (s : System) : Prop where
  req : s.client.req_mtx = none
  toServer : s.toServer = []
  toClient : s.toClient = []
  session : s.server.session = .idle

theorem Going.resting (h : s.Going) (hreq : s.client.req_mtx = none) (hbusy : ¬ s.Busy) :
    s.Resting := by
  have hwire := h.served.wire
  have hcl := (hwire.silent (due_of_none hreq)).1
  obtain ⟨hserver, hjoining, hanswered⟩ : s.toServer = [] ∧ (∀ a, s.server.session ≠ .joining a)
      ∧ ∀ a, s.server.session ≠ .answered a := by
    simpa [Busy, not_or] using hbusy
  have hneeds : ¬ s.server.session.Needs := by
    intro hneeds
    rcases hwire.needs hneeds with ⟨⟨r, hr⟩ | hmem, -⟩ | ⟨-, m, rest, hne, -⟩
    · have hholds := (h.served.client.locks.main h.ne_terminated).mpr (by rw [hr]; trivial)
      rw [hreq] at hholds
      cases hholds
    · rw [hcl] at hmem
      cases hmem
    · rw [hserver] at hne
      cases hne
  refine ⟨hreq, hserver, hcl, ?_⟩
  cases hsession : s.server.session with
  | idle => rfl
  | joining a => exact absurd hsession (hjoining a)
  | answered a => exact absurd hsession (hanswered a)
  | ended => exact absurd hsession h.alive
  | admitted n => exact absurd (by rw [hsession]; trivial) hneeds
  | created a n => exact absurd (by rw [hsession]; trivial) hneeds

theorem Resting.load_eq (h : s.Resting) : s.load = 0 := by
  simp [load, h.session, h.toServer, h.toClient, SessionPc.weight]

/-- The waiter of `r` alone has gone on, as far as `pc`. -/
structure Walks (s : System) (r : Ref) (pc : WaiterPc) (s' : System) : Prop where
  run : lts.RunIf Onward s s'
  resting : s'.Resting
  server_eq : s'.server = s.server
  main_eq : s'.client.main = s.client.main
  pending_eq : s'.client.pending_transactions = s.client.pending_transactions
  heap_eq : s'.client.heap = s.client.heap
  pc_eq : s'.client.pc = Function.update s.client.pc r pc

theorem Walks.trans {pc pc' : WaiterPc} (h : Walks s r pc s') (h' : Walks s' r pc' s'') :
    Walks s r pc' s'' where
  run := h.run.trans h'.run
  resting := h'.resting
  server_eq := h'.server_eq.trans h.server_eq
  main_eq := h'.main_eq.trans h.main_eq
  pending_eq := h'.pending_eq.trans h.pending_eq
  heap_eq := h'.heap_eq.trans h.heap_eq
  pc_eq := by rw [h'.pc_eq, h.pc_eq, Function.update_idem]

def Final (s : System) (r : Ref) : Prop :=
  ∃ status, statusOf s.server (transId r) = some status
    ∧ (status = .TRANSACTION_DONE ∨ status = .TRANSACTION_TIMEOUT)

theorem Walks.query (h : s.Going) (hrest : s.Resting) (hfinal : s.Final r)
    (hpc : s.client.pc r = .query) : ∃ s', Walks s r .leave s' := by
  have hc := h.served.client
  obtain ⟨t, ht⟩ := h.heap (hc.book.running r (by simp [hpc]))
  obtain ⟨status, hstatus, hdone⟩ := hfinal
  have hid := payload_id hc.owns ht
  have hsome : (s.server.id2trans (transId r).toNat).isSome := by
    cases hmap : s.server.id2trans (transId r).toNat with
    | none => simp [statusOf, hmap] at hstatus
    | some a => rfl
  let c := (s.client.lockReq (.waiter r)).waiterGoto r .querying
  let asked : System := (s.withClient c).send (.queryTransactionStatus (transId r))
  let served : System := { s.withClient c with toServer := [], toClient := [.status status] }
  have hquery : lts.step (.query r) s = some asked := by
    refine waiter_step h.ne_terminated ht rfl ?_
    simp [System.waiterStep, ht, queryStep, hpc, hrest.req, hid, asked, c]
  have hserve : lts.step (.session 0 false) asked = some served := by
    simp [lts, sessionStep, sessionLabel, asked, send, withClient, hrest.session, hrest.toServer,
      hrest.toClient, MgrServer.lts, MgrServer.sessionStep, hsome, replies, hstatus, otherRequest,
      served]
  have hqueried : lts.step (.queried r) served
      = some (served.withClient (c.unlockReq.waiterGoto r .leave)).taken := by
    refine waiter_step (t := t) h.ne_terminated ht rfl ?_
    have hquerying : served.client.pc r = .querying := Function.update_self ..
    have hheap : served.client.heap r = some t := ht
    have hcl : served.toClient = [.status status] := rfl
    simp only [System.waiterStep, hheap, queryStep, hquerying, hcl, hdone, if_true]
    rfl
  refine ⟨_, .tail (.queried r)
    (.tail (.session 0 false) (.single (l := .query r) ⟨trivial, rfl⟩ hquery)
    ⟨trivial, rfl⟩ hserve) ⟨trivial, rfl⟩ hqueried, ⟨rfl, rfl, rfl, hrest.session⟩, rfl, rfl, rfl,
      rfl, ?_⟩
  exact Function.update_idem ..

theorem Walks.test (h : s.Going) (hrest : s.Resting) (hfinal : s.Final r)
    (hpc : s.client.pc r = .test) : ∃ s', Walks s r .leave s' := by
  obtain ⟨t, ht⟩ := h.heap (h.served.client.book.running r (by simp [hpc]))
  have hwalk : ∀ pc, (if t.mTimeOut = 0 then WaiterPc.query else .leave) = pc →
      Walks s r pc (s.withClient (s.client.waiterGoto r pc)) := by
    rintro pc rfl
    refine ⟨.single (l := .test r) ⟨trivial, rfl⟩ (waiter_step h.ne_terminated ht rfl ?_),
      ⟨hrest.req, hrest.toServer, hrest.toClient, hrest.session⟩, rfl, rfl, rfl, rfl, rfl⟩
    simp only [System.waiterStep, ht, queryStep, hpc, if_true]
  by_cases hzero : t.mTimeOut = 0
  · have hquery := hwalk .query (if_pos hzero)
    have hgoing := h.trans hquery.run h.alive h.live
    obtain ⟨s', hleave⟩ := Walks.query hgoing hquery.resting hfinal (Function.update_self ..)
    exact ⟨s', hquery.trans hleave⟩
  · exact ⟨_, hwalk .leave (if_neg hzero)⟩

theorem Walks.start (h : s.Going) (hrest : s.Resting) (hfinal : s.Final r)
    (holdest : s.client.oldest = some r) (hpc : s.client.pc r = .start)
    (hquery : s.client.query_mtx = none) : ∃ s', Walks s r .leave s' := by
  obtain ⟨t, ht⟩ := h.heap (h.served.client.book.running r (by simp [hpc]))
  have hlock : Walks s r .test
      (s.withClient { s.client.waiterGoto r .test with query_mtx := some r }) := by
    refine ⟨.single (l := .lockQuery r) ⟨holdest, rfl⟩ (waiter_step h.ne_terminated ht rfl ?_),
      ⟨hrest.req, hrest.toServer, hrest.toClient, hrest.session⟩, rfl, rfl, rfl, rfl, rfl⟩
    simp only [System.waiterStep, ht, queryStep, hpc, hquery, and_self, if_true]
  have hgoing := h.trans hlock.run h.alive h.live
  obtain ⟨s', hleave⟩ := Walks.test hgoing hlock.resting hfinal (Function.update_self ..)
  exact ⟨s', hlock.trans hleave⟩

theorem Going.exists_final (h : s.Going) (hrest : s.Resting) (holdest : s.client.oldest = some r) :
    ∃ m : MgrServer, lts.RunIf Onward s { s with server := m }
      ∧ ({ s with server := m } : System).Going ∧ m.session = .idle
      ∧ ({ s with server := m } : System).Final r := by
  have hnext := h.next_of_oldest holdest (by simp [hrest.req])
  obtain ⟨a, threads, t, hthreads, ht, hid⟩ :=
    h.exists_thread hnext (by simp [carried, hrest.toServer])
    (hand_of_req (by simp [hrest.req]) h.served.client h.live) (by simp [hrest.session])
  obtain ⟨m, hrun, hgoing, hdriven, hpc⟩ := h.finish (a := a) (by rw [hthreads]; rfl)
  refine ⟨m, hrun, hgoing, hdriven.frame.session_eq.trans hrest.session, ?_⟩
  obtain ⟨t', ht', hdone⟩ := hdriven.decided hpc
  obtain ⟨t₀, ht₀, hkey⟩ := hdriven.frame.heap_eq' ht'
  cases ht.symm.trans ht₀
  obtain ⟨t'', ht'', hmap⟩ := hgoing.served.server.book.live a
    (hgoing.served.server.book.mem_transactions hdriven.mem)
  cases ht'.symm.trans ht''
  rw [← Transaction.trans_id_of_key hkey, hid] at hmap
  refine ⟨t'.status, ?_, hdone⟩
  change (m.id2trans _).bind (fun a => (m.heap a).map Transaction.status) = _
  rw [hmap, Option.bind_some, ht', Option.map_some]

theorem Going.rests (h : s.Going) (hrest : s.Resting) (holdest : s.client.oldest = some r) :
    ∃ s', Advances s s' := by
  have hlocks := h.served.client.locks
  obtain ⟨hearly, asked, rest, hpending, -⟩ := oldest_eq_some.mp holdest
  have hnot : ¬ (s.client.pc r).Holds := by
    intro hholds
    have hreq := (hlocks.waiter r).mpr hholds
    rw [hrest.req] at hreq
    cases hreq
  obtain ⟨t, ht⟩ := h.heap (r := r) (by rw [hpending]; simp)
  by_cases hleave : s.client.pc r = .leave
  · refine ⟨s.withClient ((s.client.lockReq (.waiter r)).waiterGoto r .locked),
      h.waiterStep (l := .lockReq r) ht ⟨trivial, rfl⟩ rfl ?_ rfl rfl rfl (by simp [hleave]) rfl ?_⟩
    · simp only [System.waiterStep, ht, queryStep, hleave, hrest.req, and_self, if_true]
    · rw [hleave]
      exact Nat.add_lt_add_left (by decide) s.load
  · obtain ⟨m, hrun, hgoing, hidle, hfinal⟩ := h.exists_final hrest holdest
    have hrest' : ({ s with server := m } : System).Resting :=
      ⟨hrest.req, hrest.toServer, hrest.toClient, hidle⟩
    have hwalks : (s.client.pc r).weight = 60
        ∧ ∃ s', Walks { s with server := m } r .leave s' := by
      cases hpc : s.client.pc r with
      | start =>
          refine ⟨rfl, Walks.start hgoing hrest' hfinal holdest hpc ?_⟩
          cases hquery : s.client.query_mtx with
          | none => rfl
          | some ρ =>
              obtain rfl : ρ = r := Option.some.inj ((h.turn.holder ρ hquery).symm.trans holdest)
              have hholds := (hlocks.query ρ).mp hquery
              rw [hpc] at hholds
              exact hholds.elim
      | test => exact ⟨rfl, Walks.test hgoing hrest' hfinal hpc⟩
      | query => exact ⟨rfl, Walks.query hgoing hrest' hfinal hpc⟩
      | leave => exact absurd hpc hleave
      | querying => exact absurd (by rw [hpc]; trivial) hnot
      | locked => exact absurd (by rw [hpc]; trivial) hnot
      | _ =>
          rw [hpc] at hearly
          cases hearly
    obtain ⟨hweight, s', hwalk⟩ := hwalks
    refine ⟨s', h.waiter (hrun.trans hwalk.run) ?_ hwalk.main_eq hwalk.pending_eq ?_ hwalk.pc_eq ?_⟩
    · rw [hwalk.resting.session, hrest.session]
    · intro hpc
      rw [hpc] at hearly
      cases hearly
    · rw [hwalk.resting.load_eq, hrest.load_eq, hweight]
      decide

theorem Going.handsOut (h : s.Going) (hmem : r ∈ s.client.pending_transactions)
    (hr : ¬ s.Completed r) (hholds : ¬ (s.client.pc r).Holds)
    (hearly : ¬ (s.client.pc r).early = true) :
    ∃ s', Advances s s' := by
  obtain ⟨t, ht⟩ := h.heap hmem
  cases hpc : s.client.pc r with
  | outputs =>
      cases hout : t.handleOutputs with
      | error e =>
          refine absurd (Or.inr ⟨hpc, fun u t' hu hok => ?_⟩) hr
          cases ht.symm.trans hu
          rw [hout] at hok
          cases hok
      | ok t' =>
          refine ⟨s.withClient ((s.client.setTrans r t').waiterGoto r .returned),
            h.waiterStep (l := .handleOutputs r) ht ⟨trivial, rfl⟩ rfl ?_ rfl rfl rfl
              (by simp [hpc]) rfl ?_⟩
          · simp only [System.waiterStep, ht, resultStep, hpc, hout, if_true]
          · rw [hpc]
            exact Nat.add_lt_add_left (by decide) s.load
  | returned => exact absurd (Or.inl hpc) hr
  | _ =>
      rw [hpc] at hholds hearly
      first | exact absurd trivial hholds | exact absurd rfl hearly

/-- As long as a transaction is not complete, some run leaves less to do. -/
theorem Going.advances (h : s.Going) (hmem : r ∈ s.client.pending_transactions)
    (hr : ¬ s.Completed r) : ∃ s', Advances s s' := by
  cases hreq : s.client.req_mtx with
  | some owner =>
      cases owner with
      | main => exact h.mainHolds hreq
      | waiter ρ => exact h.holder hreq
  | none =>
      by_cases hbusy : s.Busy
      · obtain ⟨s', hserves⟩ := h.exists_serves hbusy
        exact ⟨s', hserves.advances⟩
      by_cases hearly : (s.client.pc r).early = true
      · have hsome : s.client.oldest.isSome := List.find?_isSome.mpr ⟨r, hmem, hearly⟩
        obtain ⟨ρ, hρ⟩ := Option.isSome_iff_exists.mp hsome
        exact h.rests (h.resting hreq hbusy) hρ
      · refine h.handsOut hmem hr ?_ hearly
        intro hholds
        have hwaiter := (h.served.client.locks.waiter r).mpr hholds
        rw [hreq] at hwaiter
        cases hwaiter

/-- Every transaction that is pending can be completed. -/
theorem Going.exists_completed (h : s.Going) : ∃ s', lts.RunIf Onward s s' ∧ s'.Going
    ∧ ∀ r ∈ s.client.pending_transactions, s'.Completed r := by
  let I (s' : System) : Prop :=
    s'.Going ∧ ∀ r ∈ s.client.pending_transactions, r ∈ s'.client.pending_transactions
  have hstep : ∀ s', I s' → ¬ (∀ r ∈ s.client.pending_transactions, s'.Completed r) →
      ∃ s'', lts.RunIf Onward s' s'' ∧ I s'' ∧ s''.remaining < s'.remaining := by
    rintro s' ⟨hgoing, hpending⟩ hnot
    push Not at hnot
    obtain ⟨r, hr, hopen⟩ := hnot
    obtain ⟨s'', hadvance⟩ := hgoing.advances (hpending r hr) hopen
    exact ⟨s'', hadvance.run, ⟨hadvance.going, fun ρ hρ => hadvance.pending ρ (hpending ρ hρ)⟩,
      hadvance.remaining_lt⟩
  obtain ⟨s', hrun, ⟨hgoing, -⟩, hall⟩ :=
    Lts.RunIf.exists_of_measure remaining hstep ⟨h, fun _ => id⟩
  exact ⟨s', hrun, hgoing, hall⟩

end System

end AieTestHarness
