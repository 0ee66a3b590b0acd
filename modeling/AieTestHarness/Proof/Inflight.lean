import AieTestHarness.Proof.Turn

/-!
# What the session thread can serve

As long as no transaction is offered under an id that is in use, nothing that is on its way to the
server ends the session.
-/

namespace AieTestHarness

namespace MainPc.Calm

variable {main : MainPc}

theorem ne_exchange (h : main.Calm) (k : After) : main ≠ .exchange (.setTimeOut 0) k := by
  rintro rfl
  exact h rfl

theorem offered_eq (h : main.Calm) : main.offered = none := by
  cases main <;> first | rfl | exact h.elim

end MainPc.Calm

namespace System

open MgrClient

variable {s s' : System} {r : Ref} {l : SystemLabel}

/-- No transaction, no query, and nothing the server refuses. -/
def Plain (m : Request) : Prop :=
  ¬ m.IsTransaction ∧ (∀ id, m ≠ .queryTransactionStatus id) ∧ m ≠ .other (.setTimeOut 0)
    ∧ m ≠ .destroy

structure Inflight (s : System) : Prop where
  offered : ∀ r, s.client.main.offered = some r → s.Unknown (transId r)
  admitted : ∀ n, s.server.session = .admitted n → ∀ umode id timeout q,
    .transaction umode id timeout q ∈ s.toServer → s.server.id2trans id.toNat = none
  query : ∀ id, .queryTransactionStatus id ∈ s.toServer → ∀ r, s.client.pc r = .querying →
    id = transId r
  interval : .other (.setTimeOut 0) ∉ s.toServer
    ∧ ∀ k, s.client.main ≠ .exchange (.setTimeOut 0) k
  destroy : .destroy ∉ s.toServer
  heap : ∀ a t, s.server.heap a = some t → a ∈ s.server.transactions

/-! ### The client -/

theorem Inflight.client (h : s.Inflight) (hserver : s'.server = s.server) (extra : List Request)
    (hto : s'.toServer = s.toServer ++ extra) (hextra : ∀ m ∈ extra, Plain m)
    (hoffered : ∀ r, s'.client.main.offered = some r → s.client.main.offered = some r)
    (hquery : ∀ r, s'.client.pc r = .querying → s.client.pc r = .querying)
    (hinterval : ∀ k, s'.client.main ≠ .exchange (.setTimeOut 0) k) : s'.Inflight := by
  have hold : ∀ m, ¬ Plain m → m ∈ s'.toServer → m ∈ s.toServer := by
    intro m hm hmem
    rw [hto] at hmem
    exact (List.mem_append.mp hmem).resolve_right fun h => hm (hextra m h)
  have htransaction : ∀ umode id timeout q, Request.transaction umode id timeout q ∈ s'.toServer →
      Request.transaction umode id timeout q ∈ s.toServer :=
    fun _ _ _ _ => hold _ fun h => h.1 trivial
  refine ⟨fun r hr => ?_, fun n hn umode id timeout q hmem => ?_, fun id hid r hr => ?_,
    ⟨fun hmem => ?_, hinterval⟩, fun hmem => ?_, ?_⟩
  · obtain ⟨hnone, hother⟩ := h.offered r (hoffered r hr)
    refine ⟨by rw [hserver]; exact hnone, fun umode id timeout q hmem => ?_⟩
    exact hother umode id timeout q (htransaction _ _ _ _ hmem)
  · rw [hserver] at hn ⊢
    exact h.admitted n hn umode id timeout q (htransaction _ _ _ _ hmem)
  · exact h.query id (hold _ (fun h => h.2.1 id rfl) hid) r (hquery r hr)
  · exact h.interval.1 (hold _ (fun h => h.2.2.1 rfl) hmem)
  · exact h.destroy (hold _ (fun h => h.2.2.2 rfl) hmem)
  · rw [hserver]
    exact h.heap

theorem Inflight.calm (h : s.Inflight) (hserver : s'.server = s.server)
    (hto : s'.toServer = s.toServer) (hpc : s'.client.pc = s.client.pc)
    (hmain : s'.client.main.offered = none)
    (hinterval : ∀ k, s'.client.main ≠ .exchange (.setTimeOut 0) k) : s'.Inflight := by
  refine h.client hserver [] (by rw [hto, List.append_nil]) (by simp) ?_
    (fun r => by rw [hpc]; exact id) hinterval
  intro r hr
  rw [hmain] at hr
  cases hr

/-! ### The statement that offers a transaction -/

theorem mainStep_of_step (hstep : lts.step l s = some s') (hne : s'.client.main ≠ s.client.main)
    (hlive : s'.client.main ≠ .terminated) : s.mainStep l = some s' := by
  have hserver : ¬ s.ServerMoves s' := fun h => hne (by rw [h.client_eq])
  simp only [lts] at hstep
  split at hstep
  · exact absurd (serverMoves_of_sessionStep hstep) hserver
  · exact absurd (serverMoves_of_lostStep hstep) hserver
  · exact absurd (serverMoves_of_serverStep hstep) hserver
  · rw [Option.ite_none_left_eq_some] at hstep
    replace hstep := hstep.2
    split at hstep
    · obtain ⟨t, -, hmoves⟩ := waiterMoves_of_waiterStep hstep
      rcases hmoves.main_eq with h | h
      · exact absurd h hne
      · exact absurd h hlive
    · exact hstep

theorem ask_of_step {memorySize : Nat} (hstep : lts.step l s = some s')
    (hmain : s.client.main = .sizing r [] memorySize)
    (hmain' : s'.client.main = .asking r memorySize) : l = .ask := by
  have h := mainStep_of_step hstep (by simp [hmain, hmain']) (by simp [hmain'])
  cases l <;> simp [mainStep, runStep, exchangeStep, waitStep, hmain] at h
  rfl

theorem Inflight.ask (h : s.Inflight) {memorySize : Nat} (hunknown : s.Unknown (transId r)) :
    ((s.withClient ((s.client.lockReq .main).goto (.asking r memorySize))).send
      (.runTestHarness (UInt64.ofNat (s.client.usage r)))).Inflight := by
  have hold : ∀ m, m ≠ .runTestHarness (UInt64.ofNat (s.client.usage r)) →
      m ∈ s.toServer ++ [.runTestHarness (UInt64.ofNat (s.client.usage r))] → m ∈ s.toServer :=
    fun m hm hmem => (List.mem_append.mp hmem).resolve_right fun h => hm (List.mem_singleton.mp h)
  refine ⟨fun ρ hρ => ?_, fun n hn umode id timeout q hmem => ?_, fun id hid => ?_,
    ⟨fun hmem => ?_, fun k => MainPc.noConfusion⟩, fun hmem => ?_, h.heap⟩
  · obtain rfl : r = ρ := Option.some.inj hρ
    exact ⟨hunknown.1, fun umode id timeout q hmem =>
      hunknown.2 umode id timeout q (hold _ Request.noConfusion hmem)⟩
  · exact h.admitted n hn umode id timeout q (hold _ Request.noConfusion hmem)
  · exact h.query id (hold _ Request.noConfusion hid)
  · exact h.interval.1 (hold _ Request.noConfusion hmem)
  · exact h.destroy (hold _ Request.noConfusion hmem)

theorem payload_id {c : MgrClient} (ho : c.Owns) {t : Transaction} (ht : c.heap r = some t) :
    UInt32.ofNat t.trans_id = transId r := by
  rw [(ho.known r t ht).2, UInt32.ofNat_toNat]

theorem Inflight.send (h : s.Inflight) (hc : s.client.Inv) {t : Transaction}
    (hmain : s.client.main = .accepted r) (ht : s.client.heap r = some t) :
    ((s.withClient (s.client.goto (.sent r))).send (payload t)).Inflight := by
  have hunknown := h.offered r (by rw [hmain]; rfl)
  have hold : ∀ m, ¬ m.IsTransaction → m ∈ s.toServer ++ [payload t] → m ∈ s.toServer := by
    intro m hm hmem
    refine (List.mem_append.mp hmem).resolve_right fun h => hm ?_
    rw [List.mem_singleton.mp h]
    trivial
  refine ⟨fun ρ hρ => (by cases hρ), fun n hn umode id timeout q hmem => ?_,
    fun id hid => h.query id (hold _ not_false hid),
      ⟨fun hmem => h.interval.1 (hold _ not_false hmem),
    fun k => MainPc.noConfusion⟩, fun hmem => h.destroy (hold _ not_false hmem), h.heap⟩
  rcases List.mem_append.mp hmem with hmem | hmem
  · exact h.admitted n hn umode id timeout q hmem
  · cases List.mem_singleton.mp hmem
    rw [payload_id hc.owns ht]
    exact hunknown.1

theorem Inflight.mainMoves (h : s.Inflight) (hc : s.client.Inv) (hl : InTurn l s)
    (hsession : s.server.session ≠ .ended) (hover : ¬ s'.client.main.Over)
    (hstep : lts.step l s = some s') (hmoves : s.MainMoves s') : s'.Inflight := by
  cases hmoves with
  | created hmain hmade hmain' =>
      rcases hmain' with rfl | ⟨rfl, -⟩
      · exact h.calm rfl rfl rfl rfl fun k => MainPc.noConfusion
      · exact h.calm rfl rfl rfl rfl fun k => MainPc.noConfusion
  | goto hmain hcalm => exact h.calm rfl rfl rfl hcalm.offered_eq hcalm.ne_exchange
  | size hmain => exact h.calm rfl rfl rfl rfl fun k => MainPc.noConfusion
  | @ask r memorySize hmain hreq =>
      have hlabel := ask_of_step hstep hmain rfl
      subst hlabel
      exact h.ask (hl r memorySize hmain)
  | @answered r memorySize b answers hmain hanswers =>
      cases b
      · exact h.calm rfl rfl rfl rfl fun k => MainPc.noConfusion
      · refine h.client rfl [] (List.append_nil _).symm (by simp) ?_ (fun _ => id)
          fun k => MainPc.noConfusion
        intro ρ hρ
        rw [hmain]
        exact hρ
  | send hmain ht => exact h.send hc hmain ht
  | @spawn r t hmain ht =>
      refine h.client rfl [] (List.append_nil _).symm (by simp) (fun ρ hρ => by cases hρ)
        (fun ρ hρ => ?_) fun k => MainPc.noConfusion
      by_cases hr : ρ = r
      · subst hr
        cases hρ.symm.trans (Function.update_self ..)
      · exact (Function.update_of_ne hr ..).symm.trans hρ
  | @request q k hmain hreq =>
      refine h.client rfl [.other q] rfl ?_ (fun ρ hρ => by cases hρ) (fun _ => id)
        fun k => MainPc.noConfusion
      intro m hm
      cases List.mem_singleton.mp hm
      refine ⟨not_false, fun _ => Request.noConfusion, fun heq => ?_, Request.noConfusion⟩
      cases heq
      exact h.interval.2 k hmain
  | unanswered hmain hcalm => exact h.calm rfl rfl rfl hcalm.offered_eq hcalm.ne_exchange
  | exchanged hmain hanswers hq hcalm => exact h.calm rfl rfl rfl hcalm.offered_eq hcalm.ne_exchange
  | fails hmain hgone => exact absurd hgone.1 hsession
  | setTimeOut hmain hpending ht => exact h.calm rfl rfl rfl rfl fun k => MainPc.noConfusion
  | join hmain hpc hcalm => exact h.calm rfl rfl rfl hcalm.offered_eq hcalm.ne_exchange
  | destroy hmain hreq => exact absurd trivial hover
  | release hmain =>
      refine absurd ?_ hover
      change MainPc.Over (if s.client.transaction_threads = [] then .destroyed else .terminated)
      split <;> trivial

/-! ### A waiter -/

theorem Inflight.waiter (h : s.Inflight) (hserver : s'.server = s.server) (extra : List Request)
    (hto : s'.toServer = s.toServer ++ extra) (hextra : ∀ m ∈ extra, Plain m)
    (hmain : s'.client.main = s.client.main) {pc : WaiterPc} (hne : pc ≠ .querying)
    (hpc : s'.client.pc = Function.update s.client.pc r pc) : s'.Inflight := by
  refine h.client hserver extra hto hextra (fun ρ => by rw [hmain]; exact id) (fun ρ hρ => ?_)
    (by rw [hmain]; exact h.interval.2)
  rw [hpc] at hρ
  by_cases hr : ρ = r
  · rw [hr, Function.update_self] at hρ
    exact absurd hρ hne
  · rwa [Function.update_of_ne hr] at hρ

theorem Inflight.queried (h : s.Inflight) (hwire : s.Wire) (hc : s.client.Inv) {t : Transaction}
    (ht : s.client.heap r = some t) (hreq : s.client.req_mtx = none) :
    ((s.withClient ((s.client.lockReq (.waiter r)).waiterGoto r .querying)).send
      (.queryTransactionStatus (UInt32.ofNat t.trans_id))).Inflight := by
  have hold : ∀ m, m ≠ .queryTransactionStatus (UInt32.ofNat t.trans_id) →
      m ∈ s.toServer ++ [.queryTransactionStatus (UInt32.ofNat t.trans_id)] → m ∈ s.toServer :=
    fun m hm hmem => (List.mem_append.mp hmem).resolve_right fun h => hm (List.mem_singleton.mp h)
  refine ⟨fun ρ hρ => ?_, fun n hn umode id timeout q hmem => ?_, fun id hid ρ hρ => ?_,
    ⟨fun hmem => ?_, h.interval.2⟩, fun hmem => ?_, h.heap⟩
  · obtain ⟨hnone, hother⟩ := h.offered ρ hρ
    exact ⟨hnone, fun umode id timeout q hmem =>
      hother umode id timeout q (hold _ Request.noConfusion hmem)⟩
  · exact h.admitted n hn umode id timeout q (hold _ Request.noConfusion hmem)
  · have hsilent := (hwire.silent (due_of_none hreq)).2.2
    have hself : ρ = r := by
      by_contra hne
      have hpc : s.client.pc ρ = .querying := (Function.update_of_ne hne ..).symm.trans hρ
      have hholds := (hc.locks.waiter ρ).mpr (by rw [hpc]; trivial)
      rw [hreq] at hholds
      cases hholds
    rcases List.mem_append.mp hid with hmem | hmem
    · cases hsilent _ hmem
    · cases List.mem_singleton.mp hmem
      rw [hself]
      exact payload_id hc.owns ht
  · exact h.interval.1 (hold _ Request.noConfusion hmem)
  · exact h.destroy (hold _ Request.noConfusion hmem)

theorem Inflight.waiterMoves {t : Transaction} (h : s.Inflight) (hs : s.Served)
    (ht : s.client.heap r = some t) (hsession : s.server.session ≠ .ended)
    (hmoves : s.WaiterMoves r t s') : s'.Inflight := by
  have hquiet : ∀ {pc}, pc ≠ .querying → s'.client.pc = Function.update s.client.pc r pc →
      s'.client.main = s.client.main → s'.server = s.server → s'.toServer = s.toServer →
      s'.Inflight := by
    intro pc hne hpc hmain hserver hto
    exact h.waiter hserver [] (by rw [hto, List.append_nil]) (by simp) hmain hne hpc
  cases hmoves with
  | query hpc hreq => exact h.queried hs.wire hs.client ht hreq
  | wait hpc =>
      refine h.waiter rfl _ rfl (fun m hm => ?_) rfl WaiterPc.noConfusion rfl
      rw [List.mem_singleton.mp hm]
      exact ⟨not_false, fun _ => Request.noConfusion, Request.noConfusion, Request.noConfusion⟩
  | test hpc => exact hquiet (by split <;> exact WaiterPc.noConfusion) rfl rfl rfl rfl
  | queried hpc hanswers hpc' =>
      exact hquiet (by rw [hpc']; split <;> exact WaiterPc.noConfusion) rfl rfl rfl rfl
  | throws hpc hgone => exact absurd hgone.1 hsession
  | lockQuery hpc hquery => exact hquiet WaiterPc.noConfusion rfl rfl rfl rfl
  | lockReq hpc hreq => exact hquiet WaiterPc.noConfusion rfl rfl rfl rfl
  | unlockQuery hpc => exact hquiet WaiterPc.noConfusion rfl rfl rfl rfl
  | recvStatus hpc hanswers => exact hquiet WaiterPc.noConfusion rfl rfl rfl rfl
  | setStatus hpc => exact hquiet WaiterPc.noConfusion rfl rfl rfl rfl
  | recvFromAie hpc hanswers => exact hquiet WaiterPc.noConfusion rfl rfl rfl rfl
  | recvPerf hpc hanswers => exact hquiet WaiterPc.noConfusion rfl rfl rfl rfl
  | unlockReq hpc => exact hquiet WaiterPc.noConfusion rfl rfl rfl rfl
  | handleOutputs hpc ht' => exact hquiet WaiterPc.noConfusion rfl rfl rfl rfl

/-! ### The server -/

theorem Inflight.server (h : s.Inflight) (hclient : s'.client = s.client)
    (hto : ∀ m ∈ s'.toServer, m ∈ s.toServer) (hid : s'.server.id2trans = s.server.id2trans)
    (hadmitted : ∀ n, s'.server.session = .admitted n → s.server.session = .admitted n
      ∨ ∀ m ∈ s'.toServer, ¬ m.IsTransaction)
    (hheap : ∀ a t, s'.server.heap a = some t → a ∈ s'.server.transactions) : s'.Inflight := by
  refine ⟨fun r hr => ?_, fun n hn umode id timeout q hmem => ?_, fun id hmem r hr => ?_,
    ⟨fun hmem => h.interval.1 (hto _ hmem), ?_⟩, fun hmem => h.destroy (hto _ hmem), hheap⟩
  · rw [hclient] at hr
    obtain ⟨hnone, hother⟩ := h.offered r hr
    refine ⟨by rw [hid]; exact hnone, fun umode id timeout q hmem => ?_⟩
    exact hother umode id timeout q (hto _ hmem)
  · rw [hid]
    rcases hadmitted n hn with hold | hnone
    · exact h.admitted n hold umode id timeout q (hto _ hmem)
    · exact absurd trivial (hnone _ hmem)
  · rw [hclient] at hr
    exact h.query id (hto _ hmem) r hr
  · rw [hclient]
    exact h.interval.2

theorem Inflight.accept (h : s.Inflight) {a : Addr} {n : UInt64} {umode : UInt8}
    {id timeout : UInt32} {q : MgrServer.Payload} {rest : List Request} {t : Transaction}
    (hserver : s.toServer = .transaction umode id timeout q :: rest) (ht : t.trans_id = id.toNat) :
    ({ s with server := s.server.accept a t n } : System).Inflight := by
  refine ⟨fun r hr => ?_, fun n hn => SessionPc.noConfusion hn, h.query, h.interval, h.destroy,
    fun b u hu => ?_⟩
  · obtain ⟨hnone, hother⟩ := h.offered r hr
    refine ⟨?_, hother⟩
    have hne : id ≠ transId r := hother umode id timeout q (by rw [hserver]; simp)
    have hne' : (transId r).toNat ≠ t.trans_id := by
      rw [ht]
      exact fun heq => hne (UInt32.toNat_inj.mp heq).symm
    exact (Function.update_of_ne hne' ..).trans hnone
  · refine List.mem_append.mpr ?_
    by_cases hb : b = a
    · exact Or.inr (by rw [hb]; exact List.mem_singleton_self a)
    · exact Or.inl (h.heap b u ((Function.update_of_ne hb ..).symm.trans hu))

theorem Inflight.serverMoves (h : s.Inflight) (hs : s.Served)
    (hsession' : s'.server.session ≠ .ended) (hmoves : s.ServerMoves s') : s'.Inflight := by
  cases hmoves with
  | ended _ hserver => exact absurd (by rw [hserver]; rfl) hsession'
  | refused hsession hserver hgt =>
      exact h.server rfl (mem_of_rest hserver) rfl (fun n hn => Or.inl hn) h.heap
  | admitted hsession hserver hle =>
      refine h.server rfl (mem_of_rest hserver) rfl (fun n _ => Or.inr fun m hm => ?_) h.heap
      exact (hs.wire.free (by rw [hsession]; exact id)).2 m (mem_of_rest hserver m hm)
  | queried hsession hserver ha ht =>
      exact h.server rfl (mem_of_rest hserver) rfl (fun n hn => Or.inl hn) h.heap
  | @waits id timeout rest a t hsession hserver ha ht hid =>
      refine h.server rfl (mem_of_rest hserver) rfl
        (fun n hn => SessionPc.noConfusion hn) fun b u hu => ?_
      by_cases hb : b = a
      · rw [hb]
        exact h.heap a t ht
      · exact h.heap b u ((Function.update_of_ne hb ..).symm.trans hu)
  | @other q rest hsession hserver =>
      cases q <;> exact h.server rfl (mem_of_rest hserver) rfl (fun n hn => Or.inl hn) h.heap
  | created hsession hserver ha hid => exact h.accept hserver rfl
  | @received a n umode id timeout q rest t hsession hserver ht hq hsize =>
      refine h.server rfl (mem_of_rest hserver) rfl
        (fun n hn => SessionPc.noConfusion hn) fun b u hu => ?_
      by_cases hb : b = a
      · rw [hb]
        exact h.heap a t ht
      · exact h.heap b u ((Function.update_of_ne hb ..).symm.trans hu)
  | joined hsession hpc ht =>
      exact h.server rfl (fun _ => id) rfl (fun n hn => SessionPc.noConfusion hn) h.heap
  | @retired a t hsession ht =>
      refine h.server rfl (fun _ => id) rfl (fun n hn => SessionPc.noConfusion hn) fun b u hu => ?_
      have hb : b ≠ a := by
        rintro rfl
        cases (Function.update_self ..).symm.trans hu
      have hmem := h.heap b u ((Function.update_of_ne hb ..).symm.trans hu)
      have hhead : s.server.transactions.head? = some a := by
        have hok := hs.server.book.session_ok
        rw [hsession] at hok
        exact hs.server.book.transactions_head hok.1
      obtain ⟨rest, hqueue⟩ := List.head?_eq_some_iff.mp hhead
      change b ∈ s.server.transactions.tail
      rw [hqueue] at hmem ⊢
      exact (List.mem_cons.mp hmem).resolve_left hb
  | @thread l m' hsession hstep hl =>
      have hframe := (MgrServer.threadMoves_of_step hs.server hl hstep).frame
      refine h.server rfl (fun _ => id) hframe.id2trans_eq (fun n hn => Or.inl ?_) fun b u hu => ?_
      · rw [← hframe.session_eq]
        exact hn
      · obtain ⟨u', hu', -⟩ := hframe.heap_eq' hu
        rw [hframe.transactions_eq]
        exact h.heap b u' hu'

/-! ### All runs -/

variable {setup : Setup} {graphs : Nat} {monitorInterval : UInt64}

theorem inflight_of_run (hrun : lts.RunIf InTurn (.new setup graphs monitorInterval) s)
    (hsession : s.server.session ≠ .ended) (hover : ¬ s.client.main.Over) : s.Inflight := by
  refine hrun.invariant_of
    (I := fun s => s.server.session ≠ .ended → ¬ s.client.main.Over → s.Inflight)
    (J := fun s => s.server.session ≠ .ended → s.Served)
    (fun s hs h => served_of_run hs h) ?_ (fun _ _ => ⟨nofun, nofun, nofun, ⟨nofun, nofun⟩, nofun,
      nofun⟩) hsession hover
  intro l s s' hJ hI hl hstep hsession' hover'
  have hsession := session_ne_of_step hstep hsession'
  have hover : ¬ s.client.main.Over := fun h => hover' (over_of_step h hstep)
  have hs := hJ hsession
  have h := hI hsession hover
  rcases step_cases hstep with hserver | ⟨-, hmain⟩ | ⟨-, r, t, ht, hwaiter⟩
  · exact h.serverMoves hs hsession' hserver
  · exact h.mainMoves hs.client hl hsession hover' hstep hmain
  · exact h.waiterMoves hs ht hsession hwaiter

end System

end AieTestHarness
