import AieTestHarness.Proof.Link
import AieTestHarness.Proof.Shutdown

/-!
# The timeout of a transaction

The timeout `runTestHarness` is called with is lost where the transaction is reset. Both ends keep 0
until `waitForRes` writes a timeout of its own, which the waiter then hands on to the server.
-/

namespace AieTestHarness

namespace System

variable {s s' : System} {r : Ref} {gone old rest : List Ref}

/-- The server has a timeout only of the transaction the main thread waits for. -/
structure Deadlines (s : System) : Prop where
  session : ∀ a u, s.server.heap a = some u → u.mTimeOut ≠ 0 →
    s.server.session = .joining a ∨ s.server.session = .answered a
  pending : ∀ a u r, s.server.heap a = some u → u.mTimeOut ≠ 0 →
    r ∈ s.client.pending_transactions → (transId r).toNat = u.trans_id →
    ∃ w, s.client.main = .joining r w
  request : ∀ id timeout r, .waitForTestHarness id timeout ∈ s.toServer →
    s.client.pc r = .asking → timeout ≠ 0 → ∃ w, s.client.main = .joining r w

/-- The ids of the pending transactions are different once they are all on the server. -/
theorem Queue.nodup_pending (h : s.Queue gone old rest) (hs : s.Served)
    (hover : ¬ s.client.main.Over) (hcarried : s.carried = []) (hhand : s.client.hand = [])
    (hpending : s.server.pending = []) :
    (s.client.pending_transactions.map fun r => (transId r).toNat).Nodup := by
  obtain ⟨-, hrest⟩ := h.ids hs.client hover hcarried hhand
  have hqueue := hs.server.book.queue_eq
  rw [hpending, List.append_nil] at hqueue
  have hun : s.server.unanswered = s.server.unserved := by
    unfold MgrServer.unanswered MgrServer.unserved
    cases s.server.session <;> simp only [hqueue]
  have hnodup := hs.server.record.nodup
  rw [hs.server.record.answered_eq, hun, ← hrest, h.answered_eq, List.map_append, List.append_assoc,
    ← List.map_append, ← h.pending_eq] at hnodup
  exact (List.nodup_append.mp hnodup).2.1

/-! ### Steps of the client -/

theorem Deadlines.main (h : s.Deadlines) (hjoining : ∀ r w, s.client.main ≠ .joining r w)
    (hserver : s'.server = s.server) {extra : List Request}
    (hto : s'.toServer = s.toServer ++ extra)
    (hextra : ∀ m ∈ extra, ∀ id timeout, m ≠ .waitForTestHarness id timeout)
    (hpc : ∀ r, s'.client.pc r = .asking → s.client.pc r = .asking)
    (hpending : ∀ r ∈ s'.client.pending_transactions, r ∈ s.client.pending_transactions
      ∨ ∀ a, s.server.session ≠ .joining a ∧ s.server.session ≠ .answered a) : s'.Deadlines := by
  refine ⟨by rw [hserver]; exact h.session, fun a u r hu hne hr hid => ?_,
    fun id timeout r hmem hr hne => ?_⟩
  · rw [hserver] at hu
    rcases hpending r hr with hold | hnot
    · obtain ⟨w, hw⟩ := h.pending a u r hu hne hold hid
      exact absurd hw (hjoining r w)
    · exact (h.session a u hu hne).elim (fun hj => absurd hj (hnot a).1)
        fun hj => absurd hj (hnot a).2
  · rw [hto] at hmem
    obtain ⟨w, hw⟩ := h.request id timeout r
      ((List.mem_append.mp hmem).resolve_right fun hnew => hextra _ hnew id timeout rfl) (hpc r hr)
      hne
    exact absurd hw (hjoining r w)

theorem Deadlines.goto (h : s.Deadlines) (hjoining : ∀ r w, s.client.main ≠ .joining r w)
    (hserver : s'.server = s.server) (hto : s'.toServer = s.toServer)
    (hpc : s'.client.pc = s.client.pc)
    (hpending : s'.client.pending_transactions = s.client.pending_transactions) : s'.Deadlines :=
  h.main hjoining hserver (hto.trans (List.append_nil _).symm) (by simp)
    (fun r hr => by rwa [hpc] at hr) fun r hr => Or.inl (by rwa [hpending] at hr)

theorem Deadlines.join (h : s.Deadlines) (hbook : s.client.Book) {w : WaitForRes} {main : MainPc}
    (hmain : s.client.main = .joining r w) (hpc : s.client.pc r = .returned) :
    (s.withClient (s.client.pop r main)).Deadlines := by
  obtain ⟨tail, htail⟩ := List.head?_eq_some_iff.mp (hbook.joining r w hmain)
  have hnodup := hbook.nodup
  rw [htail, List.nodup_cons] at hnodup
  refine ⟨h.session, fun a u ρ hu hne hρ hid => ?_, fun id timeout ρ hmem hρ hne => ?_⟩
  · replace hρ : ρ ∈ s.client.pending_transactions.tail := hρ
    obtain ⟨w', hw'⟩ := h.pending a u ρ hu hne (List.mem_of_mem_tail hρ) hid
    cases hmain.symm.trans hw'
    rw [htail] at hρ
    exact absurd hρ hnodup.1
  · obtain ⟨w', hw'⟩ := h.request id timeout ρ hmem hρ hne
    cases hmain.symm.trans hw'
    rw [show s.client.pc r = .asking from hρ] at hpc
    cases hpc

theorem Deadlines.mainMoves (h : s.Deadlines) (hs : s.Served)
    (hsession : s.server.session ≠ .ended) (hover : ¬ s'.client.main.Over)
    (hmoves : s.MainMoves s') : s'.Deadlines := by
  have hno : ∀ {m : Request}, (∀ id timeout, m ≠ .waitForTestHarness id timeout) →
      ∀ x ∈ [m], ∀ id timeout, x ≠ .waitForTestHarness id timeout := fun hm x hx => by
    rwa [List.mem_singleton.mp hx]
  cases hmoves with
  | created hmain hmade hmain' => exact h.goto (by simp [hmain]) rfl rfl rfl rfl
  | goto hmain hcalm =>
      rcases hmain with hmain | ⟨w, hmain⟩ <;> exact h.goto (by simp [hmain]) rfl rfl rfl rfl
  | size hmain => exact h.goto (by simp [hmain]) rfl rfl rfl rfl
  | ask hmain hreq =>
      exact h.main (by simp [hmain]) rfl rfl (hno (by simp)) (fun _ => id) fun _ => Or.inl
  | @answered r memorySize b answers hmain hanswers =>
      cases b <;> exact h.goto (by simp [hmain]) rfl rfl rfl rfl
  | send hmain ht =>
      exact h.main (by simp [hmain]) rfl rfl (hno (by simp [MgrClient.payload])) (fun _ => id)
        fun _ => Or.inl
  | @spawn r t hmain ht =>
      refine h.main (by simp [hmain]) rfl (List.append_nil _).symm (by simp) (fun ρ hρ => ?_)
        fun ρ hρ => Or.inr fun a => ⟨fun ha => ?_, fun ha => (hs.wire.answered a ha).1 r hmain⟩
      · by_cases hr : ρ = r
        · rw [hr, show (s.withClient (s.client.spawn r t)).client.pc r = .start from
            Function.update_self ..] at hρ
          cases hρ
        · exact (Function.update_of_ne hr ..).symm.trans hρ
      · obtain ⟨ρ', -, hasking, -⟩ := hs.wire.joining ha
        exact no_asking_of_main hs.client.locks (by simp [hmain])
          (by rw [hmain]; trivial) ρ' hasking
  | request hmain hreq =>
      exact h.main (by simp [hmain]) rfl rfl (hno (by simp)) (fun _ => id) fun _ => Or.inl
  | unanswered hmain hcalm => exact h.goto (by simp [hmain]) rfl rfl rfl rfl
  | exchanged hmain hanswers hq hcalm => exact h.goto (by simp [hmain]) rfl rfl rfl rfl
  | fails hmain hgone => exact absurd hgone.1 hsession
  | setTimeOut hmain hpending ht => exact h.goto (by simp [hmain]) rfl rfl rfl rfl
  | join hmain hpc hcalm => exact h.join hs.client.book hmain hpc
  | destroy hmain hreq => exact absurd trivial hover
  | release hmain => exact h.goto (by simp [hmain]) rfl rfl rfl rfl

/-- Whoever waits for results has asked before, or asks now. -/
theorem WaiterMoves.asking {t : Transaction} {ρ : Ref} (hmoves : s.WaiterMoves r t s')
    (hl : s.client.Locks) (hρ : s'.client.pc ρ = .asking) :
    (s.client.pc ρ = .asking ∧ ∀ id timeout, .waitForTestHarness id timeout ∈ s'.toServer →
        .waitForTestHarness id timeout ∈ s.toServer)
      ∨ ρ = r ∧ s.client.pc r = .ask ∧ s'.toServer = s.toServer
        ++ [.waitForTestHarness (UInt32.ofNat t.trans_id) (UInt32.ofNat t.mTimeOut)] := by
  have hupdate : ∀ {s' : System} {pc : WaiterPc}, s'.client.pc ρ = .asking →
      s'.client.pc = Function.update s.client.pc r pc → pc ≠ .asking → s.client.pc ρ = .asking := by
    intro s' pc hρ hpc hne
    by_cases hr : ρ = r
    · rw [hpc, hr, Function.update_self] at hρ
      exact absurd hρ hne
    · rwa [hpc, Function.update_of_ne hr] at hρ
  cases hmoves with
  | wait hpc =>
      by_cases hr : ρ = r
      · exact Or.inr ⟨hr, hpc, rfl⟩
      · replace hρ : s.client.pc ρ = .asking := (Function.update_of_ne hr ..).symm.trans hρ
        exact absurd (eq_of_holds hl (by rw [hpc]; trivial) (by rw [hρ]; trivial)) hr
  | query hpc hreq =>
      refine Or.inl ⟨hupdate hρ rfl nofun, fun id timeout hmem => ?_⟩
      refine (List.mem_append.mp hmem).resolve_right fun hnew => ?_
      cases List.mem_singleton.mp hnew
  | test hpc =>
      refine Or.inl ⟨hupdate hρ rfl ?_, fun _ _ => id⟩
      split <;> exact nofun
  | queried hpc hanswers hpc' =>
      refine Or.inl ⟨hupdate hρ rfl ?_, fun _ _ => id⟩
      rw [hpc']
      split <;> exact nofun
  | throws hpc hgone => exact Or.inl ⟨hρ, fun _ _ => id⟩
  | _ => exact Or.inl ⟨hupdate hρ rfl nofun, fun _ _ => id⟩

/-- A waiter that asks hands on what it has, which is 0 unless the main thread waits for it. -/
theorem Deadlines.waiterMoves {t : Transaction} (h : s.Deadlines) (hs : s.Served)
    (ht : s.client.heap r = some t) (hover : ¬ s'.client.main.Over)
    (hmoves : s.WaiterMoves r t s') : s'.Deadlines := by
  have hmain : s'.client.main = s.client.main := by
    refine hmoves.main_eq.resolve_right fun hterminated => ?_
    rw [hterminated] at hover
    exact hover trivial
  have hserver := hmoves.server_eq
  refine ⟨by rw [hserver]; exact h.session, fun a u ρ hu hne hρ hid => ?_,
    fun id timeout ρ hmem hρ hne => ?_⟩
  · rw [hserver] at hu
    rw [hmoves.pending_eq] at hρ
    rw [hmain]
    exact h.pending a u ρ hu hne hρ hid
  · rw [hmain]
    rcases hmoves.asking hs.client.locks hρ with ⟨hρ, hsub⟩ | ⟨rfl, hpc, hto⟩
    · exact h.request id timeout ρ (hsub id timeout hmem) hρ hne
    · have hreq := (hs.client.locks.waiter ρ).mpr (by rw [hpc]; trivial)
      obtain ⟨-, -, hsilent⟩ := hs.wire.silent (by rw [due_of_waiter hreq, hpc]; rfl)
      rw [hto] at hmem
      rcases List.mem_append.mp hmem with hold | hnew
      · cases hsilent _ hold
      · cases List.mem_singleton.mp hnew
        refine hs.client.owns.timeout ?_ ρ t ht (fun hzero => hne (by rw [hzero]; rfl))
          (Or.inl (hs.client.book.running ρ (by simp [hpc])))
        rintro hterminated
        rw [hmain, hterminated] at hover
        exact hover trivial

/-! ### Steps of the server -/

theorem Deadlines.server (h : s.Deadlines) (hclient : s'.client = s.client)
    (hto : ∀ m ∈ s'.toServer, m ∈ s.toServer)
    (hzero : ∀ a u, s'.server.heap a = some u → u.mTimeOut = 0) : s'.Deadlines := by
  refine ⟨fun a u hu hne => absurd (hzero a u hu) hne,
    fun a u _ hu hne => absurd (hzero a u hu) hne, fun id timeout r hmem hr hne => ?_⟩
  rw [hclient] at hr ⊢
  exact h.request id timeout r (hto _ hmem) hr hne

theorem Deadlines.waits (h : s.Deadlines) (hs : s.Served) (hlink : s.Link)
    (hover : ¬ s.client.main.Over) {trans_id timeout : UInt32} {requests : List Request} {a : Addr}
    {t : Transaction} (hsession : s.server.session = .idle)
    (hserver : s.toServer = .waitForTestHarness trans_id timeout :: requests)
    (hid : trans_id.toNat = t.trans_id) :
    ({ s with
      server :=
        { s.server.setTrans a { t with mTimeOut := timeout.toNat } with session := .joining a }
      toServer := requests } : System).Deadlines := by
  have hmem : .waitForTestHarness trans_id timeout ∈ s.toServer := by
    rw [hserver]
    exact List.mem_cons_self
  have hzero : ∀ b u, s.server.heap b = some u → u.mTimeOut = 0 := fun b u hu => by
    by_contra hne
    rcases h.session b u hu hne with hj | hj <;> rw [hsession] at hj <;> cases hj
  have hself : ∀ {b u}, (s.server.setTrans a { t with mTimeOut := timeout.toNat }).heap b = some u →
      u.mTimeOut ≠ 0 → b = a ∧ u = { t with mTimeOut := timeout.toNat } := by
    intro b u hu hne
    by_cases hb : b = a
    · subst hb
      exact ⟨rfl, Option.some.inj (hu.symm.trans (Function.update_self ..))⟩
    · exact absurd (hzero b u ((Function.update_of_ne hb ..).symm.trans hu)) hne
  refine ⟨fun b u hu hne => Or.inl ?_, fun b u ρ hu hne hρ huid => ?_,
    fun id timeout' ρ hmem' => h.request id timeout' ρ (mem_of_rest hserver _ hmem')⟩
  · rw [(hself hu hne).1]
  · obtain ⟨-, rfl⟩ := hself hu hne
    obtain ⟨r, hpc⟩ := hs.wire.asking_of_wait hmem
    have hne' : timeout ≠ 0 := by
      rintro rfl
      exact hne rfl
    obtain ⟨w, hw⟩ := h.request trans_id timeout r hmem hpc hne'
    obtain ⟨gone, old, rest, hqueue⟩ := hlink.queue
    have hnodup := hqueue.nodup_pending hs hover
      (carried_eq_nil (hs.wire.free (by rw [hsession]; exact id)).2)
      (hand_of_not_sent (by simp [hw])) (MgrServer.pending_of_ne (by simp [hsession]))
    have hr : ρ = r := by
      refine List.inj_on_of_nodup_map hnodup hρ (hs.client.book.running r (by simp [hpc])) ?_
      rw [huid, ← hid, hlink.receipt.request trans_id timeout hmem r hpc]
    exact ⟨w, by rw [hr]; exact hw⟩

theorem Deadlines.joined (h : s.Deadlines) {a : Addr} {t : Transaction}
    (hsession : s.server.session = .joining a) {answers : List Answer} :
    ({ s with server := s.server.answer a t, toClient := answers } : System).Deadlines := by
  refine ⟨fun b u hu hne => Or.inr ?_, h.pending, h.request⟩
  rcases h.session b u hu hne with hj | hj <;> rw [hsession] at hj <;> cases hj
  rfl

theorem Deadlines.thread (h : s.Deadlines) {m' : MgrServer} (hmoves : s.server.ThreadMoves m') :
    ({ s with server := m' } : System).Deadlines := by
  have hheap : ∀ a u, m'.heap a = some u → ∃ u', s.server.heap a = some u'
      ∧ u'.trans_id = u.trans_id ∧ u'.mTimeOut = u.mTimeOut := by
    intro a u hu
    cases hmoves with
    | @move b t t' pc f mtx es hhead ht hpc hkey htimeout hes =>
        by_cases hb : a = b
        · subst hb
          cases (Function.update_self ..).symm.trans hu
          exact ⟨t, ht, (Transaction.trans_id_of_key hkey).symm, htimeout.symm⟩
        · exact ⟨u, (Function.update_of_ne hb ..).symm.trans hu, rfl, rfl⟩
    | device => exact ⟨u, hu, rfl, rfl⟩
  refine ⟨fun a u hu hne => ?_, fun a u r hu hne hr hid => ?_, h.request⟩
  · obtain ⟨u', hu', -, htimeout⟩ := hheap a u hu
    rw [hmoves.frame.session_eq]
    exact h.session a u' hu' (by rwa [htimeout])
  · obtain ⟨u', hu', hid', htimeout⟩ := hheap a u hu
    exact h.pending a u' r hu' (by rwa [htimeout]) hr (hid.trans hid'.symm)

theorem Deadlines.serverMoves (h : s.Deadlines) (hs : s.Served) (hlink : s.Link)
    (hover : ¬ s.client.main.Over) (hsession' : s'.server.session ≠ .ended)
    (hmoves : s.ServerMoves s') : s'.Deadlines := by
  have hzero : (∀ a, s.server.session ≠ .joining a) → (∀ a, s.server.session ≠ .answered a) →
      ∀ a u, s.server.heap a = some u → u.mTimeOut = 0 := by
    intro hjoining hanswered a u hu
    by_contra hne
    exact (h.session a u hu hne).elim (hjoining a) (hanswered a)
  cases hmoves with
  | ended hclient hserver => exact absurd (by rw [hserver]; rfl) hsession'
  | refused hsession hserver hgt =>
      exact h.server rfl (mem_of_rest hserver) (hzero (by simp [hsession]) (by simp [hsession]))
  | admitted hsession hserver hle =>
      exact h.server rfl (mem_of_rest hserver) (hzero (by simp [hsession]) (by simp [hsession]))
  | queried hsession hserver ha ht =>
      exact h.server rfl (mem_of_rest hserver) (hzero (by simp [hsession]) (by simp [hsession]))
  | waits hsession hserver ha ht hid => exact h.waits hs hlink hover hsession hserver hid
  | @other q requests hsession hserver =>
      cases q <;>
        exact h.server rfl (mem_of_rest hserver) (hzero (by simp [hsession]) (by simp [hsession]))
  | @created a n umode id timeout q requests mode hsession hserver ha hid =>
      refine h.server rfl (fun _ hm => hm) fun b u hu => ?_
      by_cases hb : b = a
      · subst hb
        cases (Function.update_self ..).symm.trans hu
        rfl
      · exact hzero (by simp [hsession]) (by simp [hsession]) b u
          ((Function.update_of_ne hb ..).symm.trans hu)
  | @received a n umode id timeout q requests t hsession hserver ht hq hsize =>
      have hold := hzero (by simp [hsession]) (by simp [hsession])
      refine h.server rfl (mem_of_rest hserver) fun b u hu => ?_
      by_cases hb : b = a
      · subst hb
        cases (Function.update_self ..).symm.trans hu
        exact hold b t ht
      · exact hold b u ((Function.update_of_ne hb ..).symm.trans hu)
  | joined hsession hpc ht => exact h.joined hsession
  | @retired a t hsession ht =>
      refine h.server rfl (fun _ => id) fun b u hu => ?_
      by_cases hb : b = a
      · subst hb
        cases (Function.update_self ..).symm.trans hu
      · by_contra hne
        have hu' : s.server.heap b = some u := (Function.update_of_ne hb ..).symm.trans hu
        rcases h.session b u hu' hne with hj | hj <;> rw [hsession] at hj <;> cases hj
        exact hb rfl
  | thread hsession hstep hl => exact h.thread (MgrServer.threadMoves_of_step hs.server hl hstep)

/-! ### All runs -/

variable {setup : Setup} {graphs : Nat} {monitorInterval : UInt64} {C : SystemLabel → System → Prop}

theorem deadlines_of_run (hrun : lts.RunIf C (.new setup graphs monitorInterval) s)
    (hsession : s.server.session ≠ .ended) (hover : ¬ s.client.main.Over) : s.Deadlines := by
  refine hrun.invariant_of
    (I := fun s => s.server.session ≠ .ended → ¬ s.client.main.Over → s.Deadlines)
    (J := fun s => s.server.session ≠ .ended → s.Served ∧ (¬ s.client.main.Over → s.Link))
    (fun s hs h => ⟨served_of_run hs h, link_of_run hs h⟩) ?_ (fun _ _ => ⟨nofun, nofun, nofun⟩)
    hsession hover
  intro l s s' hJ hI _ hstep hsession' hover'
  have hsession := session_ne_of_step hstep hsession'
  have hover : ¬ s.client.main.Over := fun h => hover' (over_of_step h hstep)
  obtain ⟨hs, hlink⟩ := hJ hsession
  rcases step_cases hstep with hserver | ⟨-, hmain⟩ | ⟨-, r, t, ht, hwaiter⟩
  · exact (hI hsession hover).serverMoves hs (hlink hover) hover hsession' hserver
  · exact (hI hsession hover).mainMoves hs hsession hover' hmain
  · exact (hI hsession hover).waiterMoves hs ht hover' hwaiter

/-- The server has accepted the transaction, and `waitForRes` has not written its timeout. -/
structure Started (s : System) (r : Ref) : Prop where
  live : ¬ s.client.main.Over
  accepted : s.client.main = .accepted r ∨ s.client.main = .sent r
    ∨ r ∈ s.client.pending_transactions
  unwritten : ∀ w, s.client.main ≠ .joining r w

structure TimesOut (s : System) (r : Ref) (timeout : UInt32) : Prop where
  client : ∀ t, s.client.heap r = some t → t.mTimeOut = timeout.toNat
  server : s.server.session ≠ .ended → ∀ a u, s.server.heap a = some u →
    u.trans_id = (transId r).toNat → u.mTimeOut = timeout.toNat

theorem Deadlines.hand (h : s.Deadlines) (hs : s.Served) (hholds : s.client.main.Holds)
    (hne : s.client.main ≠ .terminated)
    (hanswered : ∀ a, s.server.session ≠ .answered a) {a : Addr} {u : Transaction}
    (hu : s.server.heap a = some u) : u.mTimeOut = 0 := by
  by_contra hne'
  rcases h.session a u hu hne' with hj | hj
  · obtain ⟨ρ, -, hasking, -⟩ := hs.wire.joining hj
    exact no_asking_of_main hs.client.locks hne hholds ρ hasking
  · exact hanswered a hj

/-- The timeout of a run reaches both ends if and only if it is 0. -/
theorem timesOut_iff (hrun : lts.Run (.new setup graphs monitorInterval) s)
    (hstarted : s.Started r) : s.TimesOut r (s.client.timeout r) ↔ s.client.timeout r = 0 := by
  have hc := MgrClient.inv_of_run hrun
  have hne : s.client.main ≠ .terminated := by
    rintro hterminated
    refine hstarted.live ?_
    rw [hterminated]
    trivial
  have hknown : r ∈ s.client.pending_transactions ∨ s.client.main.fresh = some r := by
    rcases hstarted.accepted with hmain | hmain | hmem
    · exact Or.inr (by rw [hmain]; rfl)
    · exact Or.inr (by rw [hmain]; rfl)
    · exact Or.inl hmem
  have hzero : ∀ t, s.client.heap r = some t → t.mTimeOut = 0 := by
    intro t ht
    by_contra htimeout
    obtain ⟨w, hw⟩ := hc.owns.timeout hne r t ht htimeout hknown
    exact hstarted.unwritten w hw
  constructor
  · intro h
    have hlt : r < s.client.created := hknown.elim (hc.book.known r) fun h => (hc.book.fresh r h).1
    obtain ⟨t, ht⟩ := hc.owns.heap hstarted.live r hlt
    have htimeout := h.client t ht
    rw [hzero t ht] at htimeout
    exact UInt32.toNat_inj.mp htimeout.symm
  · intro h
    rw [h]
    refine ⟨hzero, fun hsession a u hu hid => ?_⟩
    have hs := served_of_run hrun hsession
    have hdeadlines := deadlines_of_run hrun hsession hstarted.live
    rcases hstarted.accepted with hmain | hmain | hmem
    · refine hdeadlines.hand hs (by rw [hmain]; trivial) hne (fun b hb => ?_) hu
      exact (hs.wire.free (by rw [hb]; exact id)).1 (Or.inl ⟨r, hmain⟩)
    · exact hdeadlines.hand hs (by rw [hmain]; trivial) hne
        (fun b hb => (hs.wire.answered b hb).1 r hmain) hu
    · by_contra htimeout
      obtain ⟨w, hw⟩ := hdeadlines.pending a u r hu htimeout hmem hid.symm
      exact hstarted.unwritten w hw

theorem started_of_pending {r : Ref} (hmain : s.client.main = .idle)
    (hmem : r ∈ s.client.pending_transactions) : s.Started r :=
  ⟨by rw [hmain]; exact id, Or.inr (Or.inr hmem), by simp [hmain]⟩

/-- A transaction that is to take no more than 5 ms. -/
theorem timesOut_iff_five : ∃ s, lts.exec startOne (new ⟨1, 4, 16, 4⟩ 0 0) = some s
    ∧ s.client.timeout 0 = 5
    ∧ (s.TimesOut 0 (s.client.timeout 0) ↔ s.client.timeout 0 = 0) := by
  have hstarted : ∃ s ∈ lts.exec startOne (new ⟨1, 4, 16, 4⟩ 0 0),
      s.client.main = .idle ∧ 0 ∈ s.client.pending_transactions ∧ s.client.timeout 0 = 5 := by
    decide +kernel
  obtain ⟨s, hexec, hmain, hmem, htimeout⟩ := hstarted
  exact ⟨s, hexec, htimeout,
    timesOut_iff (Lts.run_of_exec (Option.mem_def.mp hexec)) (started_of_pending hmain hmem)⟩

theorem not_timesOut : ¬ ∀ setup graphs monitorInterval s r,
    lts.Run (new setup graphs monitorInterval) s → s.Started r →
      s.TimesOut r (s.client.timeout r) := by
  intro hall
  have hstarted : ∃ s ∈ lts.exec startOne (new ⟨1, 4, 16, 4⟩ 0 0),
      s.client.main = .idle ∧ 0 ∈ s.client.pending_transactions ∧ s.client.timeout 0 = 5
        ∧ (s.client.heap 0).map Transaction.mTimeOut = some 0 := by
    decide +kernel
  obtain ⟨s, hexec, hmain, hmem, htimeout, hheap⟩ := hstarted
  obtain ⟨t, ht, hzero⟩ := Option.map_eq_some_iff.mp hheap
  have hreached := (hall _ _ _ s 0 (Lts.run_of_exec (Option.mem_def.mp hexec))
    (started_of_pending hmain hmem)).client t ht
  rw [hzero, htimeout] at hreached
  cases hreached

end System

end AieTestHarness
