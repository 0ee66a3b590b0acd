import AieTestHarness.Proof.Serving

/-!
# A waiter out of turn

A waiter that locks `query_mtx` before the waiter of an older transaction asks for a status that
cannot become final: the thread of its transaction waits for the older one to leave the queue, and
the older one leaves it only when its own waiter has locked `query_mtx`. Neither gets any further.
-/

namespace AieTestHarness

namespace MgrServer

variable {m m' : MgrServer} {l : ServerLabel} {setup : Setup}

def Untouched (m : MgrServer) : Prop :=
  ∀ a ∈ m.pl_threads.tail, ∀ t, m.heap a = some t → t.status = .TRANSACTION_READY

theorem Untouched.mono (h : m.Untouched)
    (hthreads : ∀ a ∈ m'.pl_threads.tail, a ∈ m.pl_threads.tail)
    (hheap : ∀ a ∈ m'.pl_threads.tail, ∀ t', m'.heap a = some t' →
      ∃ t, m.heap a = some t ∧ t'.status = t.status) : m'.Untouched := by
  intro a ha t' ht'
  obtain ⟨t, ht, hstatus⟩ := hheap a ha t' ht'
  rw [hstatus]
  exact h a (hthreads a ha) t ht

theorem Untouched.thread (h : m.Untouched) (hm : m.Inv) (hmoves : m.ThreadMoves m') :
    m'.Untouched := by
  cases hmoves with
  | @move a t t' pc f mtx es hhead ht hpc hkey htimeout hes =>
      refine h.mono (fun _ => id) fun b hb u hu => ⟨u, ?_, rfl⟩
      obtain ⟨threads, hthreads⟩ := List.head?_eq_some_iff.mp hhead
      have hnodup := hm.book.threads_nodup
      have hne : b ≠ a := by
        rintro rfl
        change b ∈ m.pl_threads.tail at hb
        rw [hthreads] at hb hnodup
        exact (List.nodup_cons.mp hnodup).1 hb
      exact (Function.update_of_ne hne ..).symm.trans hu
  | device => exact h

theorem Untouched.session (h : m.Untouched) (hm : m.Inv) (hmoves : m.SessionMoves l m') :
    m'.Untouched := by
  cases hmoves with
  | failed hanswered hjoining => exact h
  | refused hsession hgt => exact h
  | admitted hsession hle => exact h
  | queried hsession hid => exact h
  | other hsession hfails => exact h
  | @created n umode trans_id timeout a mode hsession ha hid =>
      refine h.mono (fun _ => id) fun b hb u hu => ⟨u, ?_, rfl⟩
      have hmem : b ∈ m.transactions := hm.book.mem_transactions (List.mem_of_mem_tail hb)
      exact (Function.update_of_ne (hm.book.ne_of_heap_none ha hmem) ..).symm.trans hu
  | @received a n q t hsession ht hq hsize =>
      intro b hb u hu
      change b ∈ (m.pl_threads ++ [a]).tail at hb
      by_cases hb' : b = a
      · subst hb'
        cases (Function.update_self ..).symm.trans hu
        rfl
      · refine h b ?_ u ((Function.update_of_ne hb' ..).symm.trans hu)
        cases hthreads : m.pl_threads with
        | nil =>
            rw [hthreads] at hb
            cases hb
        | cons c threads =>
            rw [hthreads, List.cons_append, List.tail_cons] at hb
            exact (List.mem_append.mp hb).resolve_right fun hmem => hb' (List.mem_singleton.mp hmem)
  | @waits trans_id timeout a t hsession ha ht hid =>
      refine h.mono (fun _ => id) fun b hb u hu => ?_
      by_cases hb' : b = a
      · subst hb'
        cases (Function.update_self ..).symm.trans hu
        exact ⟨t, ht, rfl⟩
      · exact ⟨u, (Function.update_of_ne hb' ..).symm.trans hu, rfl⟩
  | joined hsession hpc ht => exact h
  | @retired a t hsession ht =>
      have hok := hm.book.session_ok
      rw [hsession] at hok
      obtain ⟨threads, hthreads⟩ := List.head?_eq_some_iff.mp hok.1
      have herase : (m.retire a t).pl_threads = threads := by
        change m.pl_threads.erase a = threads
        rw [hthreads, List.erase_cons_head]
      have hsub : ∀ b ∈ threads.tail, b ∈ m.pl_threads.tail := fun b hb => by
        rw [hthreads]
        exact List.mem_of_mem_tail hb
      refine h.mono (by rwa [herase]) fun b hb u hu => ⟨u, ?_, rfl⟩
      have hne : b ≠ a := by
        rintro rfl
        cases (Function.update_self ..).symm.trans hu
      exact (Function.update_of_ne hne ..).symm.trans hu

theorem Untouched.step (h : m.Untouched) (hm : m.Inv) (hstep : lts.step l m = some m') :
    m'.Untouched := by
  by_cases hl : OfThread l m
  · exact h.thread hm (threadMoves_of_step hm hl hstep)
  · refine h.session hm (l := l) (sessionMoves_of_sessionStep ?_)
    simp only [lts, Option.ite_none_left_eq_some] at hstep
    cases l <;> first | exact hstep.2 | exact absurd (by simp [OfThread]) hl

theorem untouched_of_run (hrun : lts.Run (new setup) m) : m.Untouched :=
  hrun.invariant_of (I := Untouched) (J := fun m => m.session ≠ .ended → m.Inv)
    (fun _ hrun => inv_of_not_ended hrun)
    (fun _ _ _ hJ h _ hstep => h.step (hJ (System.session_of_step hstep)) hstep)
    (by simp [Untouched, new])

end MgrServer

theorem mem_of_pair_sublist {α : Type} {x y z : α} {l : List α} (h : [x, y].Sublist (z :: l)) :
    y ∈ l := by
  cases h with
  | cons _ h => exact h.subset (by simp)
  | cons_cons _ h => exact List.singleton_sublist.mp h

namespace System

open MgrClient

variable {s s' : System} {r ρ x : Ref} {l : SystemLabel} {gone old rest : List Ref}

/-- The waiter of `ρ` has not locked `query_mtx`, and that of the younger `r` has. -/
structure Blocked (s : System) (ρ r : Ref) : Prop where
  before : [ρ, r].Sublist s.client.pending_transactions
  waits : s.client.pc ρ = .start
  holds : s.client.query_mtx = some r
  asks : s.client.pc r = .test ∨ s.client.pc r = .query ∨ s.client.pc r = .querying
  request : s.client.pc r = .querying → ∀ id, .queryTransactionStatus id ∈ s.toServer →
    id = transId r
  answer : s.client.pc r = .querying → ∀ status, .status status ∈ s.toClient →
    status = .TRANSACTION_READY

theorem Blocked.pc_ne (h : s.Blocked ρ r) {pc : WaiterPc} (hpc : s.client.pc r = pc) :
    pc = .test ∨ pc = .query ∨ pc = .querying := hpc ▸ h.asks

theorem Blocked.mem (h : s.Blocked ρ r) :
    ρ ∈ s.client.pending_transactions ∧ r ∈ s.client.pending_transactions :=
  ⟨h.before.subset (by simp), h.before.subset (by simp)⟩

theorem Blocked.ne (h : s.Blocked ρ r) : ρ ≠ r := by
  rintro rfl
  rcases h.pc_ne h.waits with h | h | h <;> cases h

/-- The transaction of `r` never gets to the front. -/
theorem Blocked.head_ne (h : s.Blocked ρ r) (hc : s.client.Inv) :
    s.client.pending_transactions.head? ≠ some r := by
  intro hhead
  obtain ⟨tail, hpending⟩ := List.head?_eq_some_iff.mp hhead
  have hnodup := hc.book.nodup
  have hbefore := h.before
  rw [hpending] at hnodup hbefore
  exact (List.nodup_cons.mp hnodup).1 (mem_of_pair_sublist hbefore)

theorem Blocked.mTimeOut_eq (h : s.Blocked ρ r) (hc : s.client.Inv)
    (hlive : s.client.main ≠ .terminated) {t : Transaction} (ht : s.client.heap r = some t) :
    t.mTimeOut = 0 := by
  by_contra hne
  obtain ⟨w, hw⟩ := hc.owns.timeout hlive r t ht hne (Or.inl h.mem.2)
  exact h.head_ne hc (hc.book.joining r w hw)

theorem Blocked.keep (h : s.Blocked ρ r)
    (hbefore : [ρ, r].Sublist s'.client.pending_transactions)
    (hρ : s'.client.pc ρ = s.client.pc ρ) (hr : s'.client.pc r = s.client.pc r)
    (hquery : s'.client.query_mtx = s.client.query_mtx)
    (hto : s.client.pc r = .querying → ∀ id, .queryTransactionStatus id ∈ s'.toServer →
      .queryTransactionStatus id ∈ s.toServer)
    (hcl : s.client.pc r = .querying → ∀ status, .status status ∈ s'.toClient →
      .status status ∈ s.toClient ∨ status = .TRANSACTION_READY) : s'.Blocked ρ r where
  before := hbefore
  waits := hρ.trans h.waits
  holds := hquery.trans h.holds
  asks := by
    rw [hr]
    exact h.asks
  request hpc id hmem := h.request (hr ▸ hpc) id (hto (hr ▸ hpc) id hmem)
  answer hpc status hmem := (hcl (hr ▸ hpc) status hmem).elim (h.answer (hr ▸ hpc) status) id

/-! ### The client -/

theorem Blocked.mainMoves (h : s.Blocked ρ r) (hc : s.client.Inv) (hover : ¬ s'.client.main.Over)
    (hmoves : s.MainMoves s') : s'.Blocked ρ r := by
  have hquiet : s'.client.pending_transactions = s.client.pending_transactions →
      s'.client.pc = s.client.pc → s'.client.query_mtx = s.client.query_mtx →
      (∀ id, .queryTransactionStatus id ∈ s'.toServer → .queryTransactionStatus id ∈ s.toServer) →
      (∀ answer ∈ s'.toClient, answer ∈ s.toClient) → s'.Blocked ρ r := by
    intro hpending hpc hquery hto hcl
    exact h.keep (hpending ▸ h.before) (congrFun hpc ρ) (congrFun hpc r) hquery (fun _ => hto)
      fun _ status hmem => Or.inl (hcl _ hmem)
  have hsend : ∀ {m : Request}, (∀ id, m ≠ .queryTransactionStatus id) → ∀ id,
      .queryTransactionStatus id ∈ s.toServer ++ [m] → .queryTransactionStatus id ∈ s.toServer := by
    intro m hm id hmem
    exact (List.mem_append.mp hmem).resolve_right fun h => hm id (List.mem_singleton.mp h).symm
  cases hmoves with
  | ask hmain hreq =>
      exact hquiet rfl rfl rfl (hsend fun _ => Request.noConfusion) fun _ => id
  | send hmain ht =>
      exact hquiet rfl rfl rfl (hsend fun _ => Request.noConfusion) fun _ => id
  | request hmain hreq =>
      exact hquiet rfl rfl rfl (hsend fun _ => Request.noConfusion) fun _ => id
  | @answered r' memorySize b answers hmain hanswers =>
      cases b <;> exact hquiet rfl rfl rfl (fun _ => id) fun _ => List.mem_of_mem_tail
  | exchanged hmain hanswers hq hcalm =>
      exact hquiet rfl rfl rfl (fun _ => id) fun _ => List.mem_of_mem_tail
  | @spawn r' t hmain ht =>
      have hfresh := (hc.book.fresh r' (by rw [hmain]; rfl)).2
      have hsame : ∀ x ∈ s.client.pending_transactions,
        (s.client.spawn r' t).pc x = s.client.pc x :=
        fun x hx => Function.update_of_ne (by rintro rfl; exact hfresh hx) ..
      exact h.keep (h.before.trans (List.sublist_append_left _ _)) (hsame ρ h.mem.1)
        (hsame r h.mem.2) rfl (fun _ _ => id) fun _ _ => Or.inl
  | @join r' w main hmain hpc hcalm =>
      obtain ⟨tail, hpending⟩ := List.head?_eq_some_iff.mp (hc.book.joining r' w hmain)
      refine h.keep ?_ rfl rfl rfl (fun _ _ => id) fun _ _ => Or.inl
      change [ρ, r].Sublist s.client.pending_transactions.tail
      have hbefore := h.before
      rw [hpending] at hbefore ⊢
      cases hbefore with
      | cons _ hbefore => exact hbefore
      | cons_cons _ hbefore =>
          have hwaits := h.waits
          rw [hpc] at hwaits
          cases hwaits
  | destroy hmain hreq => exact absurd trivial hover
  | release hmain =>
      refine absurd ?_ hover
      change MainPc.Over (if s.client.transaction_threads = [] then .destroyed else .terminated)
      split <;> trivial
  | _ => exact hquiet rfl rfl rfl (fun _ => id) fun _ => id

theorem Blocked.own {t : Transaction} (h : s.Blocked ρ r) (hwire : s.Wire) (hc : s.client.Inv)
    (hlive : s.client.main ≠ .terminated) (ht : s.client.heap r = some t)
    (hsession : s.server.session ≠ .ended) (hmoves : s.WaiterMoves r t s') : s'.Blocked ρ r := by
  have hwaits : ∀ pc, Function.update s.client.pc r pc ρ = .start := fun pc =>
    (Function.update_of_ne h.ne ..).trans h.waits
  have hself : ∀ pc, Function.update s.client.pc r pc r = pc := fun pc => Function.update_self ..
  cases hmoves with
  | test hpc =>
      rw [if_pos (h.mTimeOut_eq hc hlive ht)]
      have hne : Function.update s.client.pc r .query r ≠ .querying := by simp
      exact ⟨h.before, hwaits _, h.holds, Or.inr (Or.inl (hself _)), fun hpc => absurd hpc hne,
        fun hpc => absurd hpc hne⟩
  | query hpc hreq =>
      obtain ⟨hcl, -, hkinds⟩ := hwire.silent (due_of_none hreq)
      refine ⟨h.before, hwaits _, h.holds, Or.inr (Or.inr (hself _)), fun _ id hmem => ?_,
        fun _ status hmem => ?_⟩
      · rcases List.mem_append.mp hmem with hold | hnew
        · cases hkinds _ hold
        · cases List.mem_singleton.mp hnew
          exact payload_id hc.owns ht
      · change Answer.status status ∈ s.toClient at hmem
        rw [hcl] at hmem
        cases hmem
  | @queried status answers pc hpc hanswers hpc' =>
      have hready := h.answer hpc status (by rw [hanswers]; simp)
      obtain rfl : pc = .test := by
        rw [hpc', hready]
        rfl
      have hne : Function.update s.client.pc r .test r ≠ .querying := by simp
      exact ⟨h.before, hwaits _, h.holds, Or.inl (hself _), fun hpc => absurd hpc hne,
        fun hpc => absurd hpc hne⟩
  | throws hpc hgone => exact absurd hgone.1 hsession
  | lockQuery hpc | lockReq hpc | unlockQuery hpc | wait hpc | recvStatus hpc | setStatus hpc
  | recvFromAie hpc | recvPerf hpc | unlockReq hpc | handleOutputs hpc =>
      rcases h.pc_ne hpc with h | h | h <;> cases h

theorem Blocked.waiterMoves {t : Transaction} (h : s.Blocked ρ r) (hwire : s.Wire)
    (hc : s.client.Inv) (hlive : s.client.main ≠ .terminated) (ht : s.client.heap x = some t)
    (hsession : s.server.session ≠ .ended) (hmoves : s.WaiterMoves x t s') : s'.Blocked ρ r := by
  by_cases hr : x = r
  · rw [hr] at hmoves ht
    exact h.own hwire hc hlive ht hsession hmoves
  have hother := fun {y : Ref} (hy : y ≠ x) => (hmoves.other hy).2
  have hpending := hmoves.pending_eq
  have hquiet : ∀ {pc}, s.client.pc x = pc → pc ≠ .start →
      s'.client.query_mtx = s.client.query_mtx →
      (s.client.pc r = .querying → ∀ id, .queryTransactionStatus id ∈ s'.toServer →
        .queryTransactionStatus id ∈ s.toServer) → (∀ answer ∈ s'.toClient, answer ∈ s.toClient) →
      s'.Blocked ρ r := by
    intro pc hpc hne hquery hto hcl
    have hρ : ρ ≠ x := by
      rintro rfl
      exact hne (hpc.symm.trans h.waits)
    exact h.keep (hpending ▸ h.before) (hother hρ) (hother (Ne.symm hr)) hquery hto
      fun _ status hmem => Or.inl (hcl _ hmem)
  cases hmoves with
  | lockQuery hpc hquery =>
      have hholds := h.holds
      rw [hquery] at hholds
      cases hholds
  | unlockQuery hpc =>
      have hholds := (hc.locks.query x).mpr (by rw [hpc]; trivial)
      rw [h.holds] at hholds
      exact absurd (Option.some.inj hholds).symm hr
  | throws hpc hgone => exact absurd hgone.1 hsession
  | query hpc hreq =>
      refine hquiet hpc WaiterPc.noConfusion rfl (fun hquerying => ?_) fun _ => id
      have hholds := (hc.locks.waiter r).mpr (by rw [hquerying]; trivial)
      rw [hreq] at hholds
      cases hholds
  | wait hpc =>
      refine hquiet hpc WaiterPc.noConfusion rfl (fun _ id hmem => ?_) fun _ => id
      exact (List.mem_append.mp hmem).resolve_right (by simp)
  | test hpc | lockReq hpc | setStatus hpc | unlockReq hpc | handleOutputs hpc =>
      exact hquiet hpc WaiterPc.noConfusion rfl (fun _ _ => id) fun _ => id
  | queried hpc | recvStatus hpc | recvFromAie hpc | recvPerf hpc =>
      exact hquiet hpc WaiterPc.noConfusion rfl (fun _ _ => id) fun _ => List.mem_of_mem_tail

/-! ### The server -/

theorem Blocked.status_eq (h : s.Blocked ρ r) (hs : s.Served) (hlink : s.Link)
    (huntouched : s.server.Untouched) (hover : ¬ s.client.main.Over)
    (hsession : s.server.session = .idle) (hpc : s.client.pc r = .querying) {a : Addr}
    {t : Transaction} (ha : s.server.id2trans (transId r).toNat = some a)
    (ht : s.server.heap a = some t) : t.status = .TRANSACTION_READY := by
  obtain ⟨gone, old, rest, hqueue⟩ := hlink.queue
  have hreq := (hs.client.locks.waiter r).mpr (by rw [hpc]; trivial)
  obtain ⟨-, hids⟩ := hqueue.ids hs.client hover
    (carried_eq_nil (hs.wire.free (by rw [hsession]; exact not_false)).2)
    (hand_of_req (by rw [hreq]; simp) hs.client hover)
  rw [MgrServer.unserved_of_ne (by simp [hsession])] at hids
  have hrest : [ρ, r].Sublist rest := by
    have hbefore := h.before
    rw [hqueue.pending_eq] at hbefore
    obtain ⟨front, back, heq, hfront, hback⟩ := List.sublist_append_iff.mp hbefore
    cases front with
    | nil => rwa [heq]
    | cons y front =>
        obtain ⟨rfl, -⟩ := List.cons.inj heq
        rcases hqueue.old_answered ρ (hfront.subset (by simp)) with hrec | ⟨hasking, -⟩
        · rw [h.waits] at hrec
          exact hrec.elim
        · rw [h.waits] at hasking
          cases hasking
  cases rest with
  | nil => cases hrest
  | cons y rest =>
      cases hthreads : s.server.pl_threads with
      | nil =>
          rw [hthreads] at hids
          cases hids
      | cons b threads =>
          rw [hthreads, List.map_cons, List.map_cons, List.cons.injEq] at hids
          have hmem : (transId r).toNat ∈ threads.map s.server.idOf := by
            rw [← hids.2]
            exact List.mem_map_of_mem (mem_of_pair_sublist hrest)
          obtain ⟨d, hd, hid⟩ := List.mem_map.mp hmem
          obtain ⟨u, hu, hmap⟩ := hs.server.book.live d
            (hs.server.book.mem_transactions (by rw [hthreads]; exact List.mem_cons_of_mem b hd))
          rw [MgrServer.idOf_of_some hu] at hid
          rw [hid, ha] at hmap
          obtain rfl := Option.some.inj hmap
          exact huntouched a (by rw [hthreads]; exact hd) t ht

theorem Blocked.serverMoves (h : s.Blocked ρ r) (hs : s.Served) (hlink : s.Link)
    (huntouched : s.server.Untouched) (hover : ¬ s.client.main.Over)
    (hsession' : s'.server.session ≠ .ended) (hmoves : s.ServerMoves s') : s'.Blocked ρ r := by
  have hquiet : s'.client = s.client → (∀ m ∈ s'.toServer, m ∈ s.toServer) →
      (s.client.pc r = .querying → ∀ status, .status status ∈ s'.toClient →
        .status status ∈ s.toClient ∨ status = .TRANSACTION_READY) → s'.Blocked ρ r := by
    intro hclient hto hcl
    exact h.keep (hclient ▸ h.before) (by rw [hclient]) (by rw [hclient]) (by rw [hclient])
      (fun _ id => hto _) hcl
  have hmore : ∀ {answer : Answer} {status : TransactionStatus},
    (∀ status, answer ≠ .status status) →
      .status status ∈ s.toClient ++ [answer] →
      .status status ∈ s.toClient ∨ status = .TRANSACTION_READY := by
    intro answer status hne hmem
    exact Or.inl ((List.mem_append.mp hmem).resolve_right fun h =>
      hne status (List.mem_singleton.mp h).symm)
  cases hmoves with
  | ended _ hserver => exact absurd (by rw [hserver]; rfl) hsession'
  | refused hsession hserver hgt =>
      exact hquiet rfl (mem_of_rest hserver) fun _ _ => hmore fun _ => Answer.noConfusion
  | admitted hsession hserver hle =>
      exact hquiet rfl (mem_of_rest hserver) fun _ _ => hmore fun _ => Answer.noConfusion
  | @queried id rest a t hsession hserver ha ht =>
      refine hquiet rfl (mem_of_rest hserver) fun hpc status hmem => ?_
      refine (List.mem_append.mp hmem).imp_right fun hnew => ?_
      cases List.mem_singleton.mp hnew
      rw [h.request hpc id (by rw [hserver]; simp)] at ha
      exact h.status_eq hs hlink huntouched hover hsession hpc ha ht
  | waits hsession hserver ha ht hid => exact hquiet rfl (mem_of_rest hserver) fun _ _ => Or.inl
  | @other q rest hsession hserver =>
      cases q with
      | setTimeOut t => exact hquiet rfl (mem_of_rest hserver) fun _ _ => Or.inl
      | _ => exact hquiet rfl (mem_of_rest hserver) fun _ _ => hmore fun _ => Answer.noConfusion
  | created hsession hserver ha hid => exact hquiet rfl (fun _ => id) fun _ _ => Or.inl
  | received hsession hserver ht hq hsize =>
      exact hquiet rfl (mem_of_rest hserver) fun _ _ => Or.inl
  | joined hsession hpc ht =>
      refine hquiet rfl (fun _ => id) fun hquerying => ?_
      obtain ⟨y, hreq, hasking, -⟩ := hs.wire.joining hsession
      have hholds := (hs.client.locks.waiter r).mpr (by rw [hquerying]; trivial)
      rw [hreq] at hholds
      cases hholds
      rw [hquerying] at hasking
      cases hasking
  | retired hsession ht => exact hquiet rfl (fun _ => id) fun _ _ => Or.inl
  | thread hsession hstep hl => exact hquiet rfl (fun _ => id) fun _ _ => Or.inl

/-! ### All runs -/

variable {setup : Setup} {graphs : Nat} {monitorInterval : UInt64}

theorem untouched_of_run (hrun : lts.Run (.new setup graphs monitorInterval) s)
    (hsession : s.server.session ≠ .ended) : s.server.Untouched :=
  MgrServer.untouched_of_run (server_run hrun hsession)

/-- As long as the session and the client go on, the two waiters stay where they are. -/
theorem Blocked.run (h : s.Blocked ρ r) (hrun₀ : lts.Run (.new setup graphs monitorInterval) s)
    (hrun : lts.Run s s') (halive : s'.server.session ≠ .ended) (hlive : ¬ s'.client.main.Over) :
    s'.Blocked ρ r := by
  refine hrun.invariant_of
    (I := fun s => s.server.session ≠ .ended → ¬ s.client.main.Over → s.Blocked ρ r)
    (J := fun s => lts.Run (new setup graphs monitorInterval) s) (fun _ hs => hrun₀.trans hs) ?_
    (fun _ _ => h) halive hlive
  intro l u u' hu hI _ hstep hsession' hover'
  have hsession := session_ne_of_step hstep hsession'
  have hover : ¬ u.client.main.Over := fun h => hover' (over_of_step h hstep)
  have hs := served_of_run hu hsession
  have hblocked := hI hsession hover
  rcases step_cases hstep with hserver | ⟨-, hmain⟩ | ⟨hne, y, t, ht, hwaiter⟩
  · exact hblocked.serverMoves hs (link_of_run hu hsession hover)
      (untouched_of_run hu hsession) hover hsession' hserver
  · exact hblocked.mainMoves hs.client hover' hmain
  · exact hblocked.waiterMoves hs.wire hs.client hne ht hsession hwaiter

theorem lockQuery_step (hstep : lts.step (.lockQuery r) s = some s') :
    s.client.pc r = .start ∧ s.client.query_mtx = none
      ∧ s' = s.withClient { s.client.waiterGoto r .test with query_mtx := some r } := by
  simp only [lts, waiterOf, Option.ite_none_left_eq_some] at hstep
  replace hstep := hstep.2
  unfold waiterStep at hstep
  split at hstep
  · cases hstep
  · simp only [queryStep, Option.ite_none_right_eq_some] at hstep
    obtain ⟨⟨hpc, hquery⟩, hstep⟩ := hstep
    exact ⟨hpc, hquery, (Option.some.inj hstep).symm⟩

/-- A waiter that does not go in turn stays behind the one whose turn it was. -/
theorem blocked_of_lockQuery (hc : s.client.Inv) (hstep : lts.step (.lockQuery r) s = some s')
    (hne : s.client.oldest ≠ some r) : ∃ ρ, s'.Blocked ρ r := by
  obtain ⟨hpc, hquery, rfl⟩ := lockQuery_step hstep
  have hmem := hc.book.running r (by simp [hpc])
  obtain ⟨ρ, hρ⟩ := Option.isSome_iff_exists.mp
    (List.find?_isSome.mpr ⟨r, hmem, by rw [hpc]; rfl⟩ : s.client.oldest.isSome)
  obtain ⟨hearly, asked, rest, hpending, hasked⟩ := oldest_eq_some.mp hρ
  have hrρ : r ≠ ρ := by
    rintro rfl
    exact hne hρ
  have hrest : r ∈ rest := by
    rw [hpending] at hmem
    rcases List.mem_append.mp hmem with hmem | hmem
    · have hfalse := hasked r hmem
      rw [hpc] at hfalse
      cases hfalse
    · exact (List.mem_cons.mp hmem).resolve_left hrρ
  have hstart : s.client.pc ρ = .start := by
    have hfree : ¬ (s.client.pc ρ).HoldsQuery := by
      intro hholds
      have hlock := (hc.locks.query ρ).mpr hholds
      rw [hquery] at hlock
      cases hlock
    cases hpcρ : s.client.pc ρ <;> rw [hpcρ] at hfree hearly <;>
      first | rfl | exact absurd trivial hfree | cases hearly
  have hself : Function.update s.client.pc r .test r = .test := Function.update_self ..
  have hnot : Function.update s.client.pc r .test r ≠ .querying := by simp
  refine ⟨ρ, ?_, (Function.update_of_ne (Ne.symm hrρ) ..).trans hstart, rfl, Or.inl hself,
    fun h => absurd h hnot, fun h => absurd h hnot⟩
  change [ρ, r].Sublist s.client.pending_transactions
  rw [hpending]
  exact (List.cons_sublist_cons.mpr (List.singleton_sublist.mpr hrest)).trans
    (List.sublist_append_right _ _)

end System

end AieTestHarness
