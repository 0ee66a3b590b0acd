import AieTestHarness.Proof.Offer

/-!
# Two queues of one list

The transactions the client waits for and those the server holds are the same, in the same order.
The client takes one from its queue when it has been joined, the server when its results are sent,
so the client's queue is the server's with some at its front that are already answered.
-/

namespace AieTestHarness

def WaiterPc.Received : WaiterPc → Prop
  | .received _ | .fromAie | .perf | .unlock | .outputs | .returned => True
  | _ => False

def WaiterPc.Receives : WaiterPc → Prop
  | .asking | .received _ | .fromAie | .perf => True
  | _ => False

theorem WaiterPc.holds_of_receives {pc : WaiterPc} (h : pc.Receives) : pc.Holds := by
  cases pc with
  | asking | received | fromAie | perf => trivial
  | _ => exact absurd h id

/-- The vector has the size of the one it is received into. -/
def Answer.Fits (t : Transaction) : Answer → Prop
  | .from_aie_ptr v => v.length = t.from_aie_ptr.length
  | .perf_ptr v => v.length = t.perf_ptr.length
  | _ => True

theorem Answer.Fits.congr {t t' : Transaction} {answer : Answer}
    (hfrom : t'.from_aie_ptr.length = t.from_aie_ptr.length)
    (hperf : t'.perf_ptr.length = t.perf_ptr.length) (h : answer.Fits t) : answer.Fits t' := by
  cases answer with
  | from_aie_ptr v => exact h.trans hfrom.symm
  | perf_ptr v => exact h.trans hperf.symm
  | _ => trivial

namespace MgrServer

/-- The threads whose results are not sent. -/
def unserved (m : MgrServer) : List Addr :=
  match m.session with
  | .answered _ => m.pl_threads.tail
  | _ => m.pl_threads

def key (m : MgrServer) (a : Addr) : Key := ((m.heap a).map Transaction.key).getD (0, 0, 0, 0, 0)

variable {m m' : MgrServer} {a : Addr}

theorem key_of_some {t : Transaction} (ht : m.heap a = some t) : m.key a = t.key := by
  rw [key, ht]
  rfl

theorem key_fst (m : MgrServer) (a : Addr) : (m.key a).1 = m.idOf a := by
  unfold key idOf
  cases m.heap a <;> rfl

theorem keyUsage_eq (m : MgrServer) (a : Addr) : keyUsage (m.key a) = m.usage a := by
  unfold key usage
  cases m.heap a <;> rfl

theorem unserved_of_ne (h : ∀ a, m.session ≠ .answered a) : m.unserved = m.pl_threads := by
  unfold unserved
  split
  · rename_i a hsession
    exact absurd hsession (h a)
  · rfl

theorem map_key_congr {l : List Addr} (h : ∀ b ∈ l, m'.heap b = m.heap b) :
    l.map m'.key = l.map m.key :=
  List.map_congr_left fun b hb => by rw [key, key, h b hb]

theorem Frame.key_eq' (h : Frame m m') : m'.key = m.key := by
  funext a
  rw [key, key, h.key_eq]

end MgrServer

namespace System

variable {s s' : System} {r : Ref} {gone old rest : List Ref}

/-- What the server holds of transactions and has not answered for. -/
def outstanding (s : System) : List Key := s.server.unserved.map s.server.key ++ s.carried

def Answered (s : System) (r : Ref) : Prop :=
  (s.client.pc r).Received ∨ s.client.pc r = .asking ∧ s.toClient ≠ []

/-- `gone` are the transactions that are joined, `old` those that are answered for. -/
structure Queue (s : System) (gone old rest : List Ref) : Prop where
  pending_eq : s.client.pending_transactions = old ++ rest
  answered_eq : answeredIds s.server.log = (gone ++ old).map fun r => (transId r).toNat
  outstanding_eq : (rest ++ s.client.hand).map s.client.key = s.outstanding
  old_answered : ∀ r ∈ old, s.Answered r
  rest_open : ∀ r ∈ rest, ¬ s.Answered r

structure Receipt (s : System) : Prop where
  request : ∀ id timeout, .waitForTestHarness id timeout ∈ s.toServer →
    ∀ r, s.client.pc r = .asking → id = transId r
  joining : ∀ a, s.server.session = .joining a → ∀ r, s.client.pc r = .asking →
    s.server.idOf a = (transId r).toNat
  fits : ∀ r t, (s.client.pc r).Receives → s.client.heap r = some t →
    ∀ answer ∈ s.toClient, answer.Fits t

/-! ### Who is answered for -/

theorem answered_congr (hpc : s'.client.pc = s.client.pc) (hcl : s'.toClient = s.toClient)
    (r : Ref) :
    s'.Answered r ↔ s.Answered r := by
  rw [Answered, Answered, hpc, hcl]

/-- Where nobody waits for results, the answers on their way are for someone else. -/
theorem answered_of_no_asking (hpc : s'.client.pc = s.client.pc)
    (hnone : ∀ r, s.client.pc r ≠ .asking) (r : Ref) : s'.Answered r ↔ s.Answered r := by
  rw [Answered, Answered, hpc]
  exact or_congr_right (iff_of_false (fun h => hnone r h.1) fun h => hnone r h.1)

theorem answered_of_waiter {pc : WaiterPc} (hpc : s'.client.pc = Function.update s.client.pc r pc)
    (hcl : s'.toClient = s.toClient ∨ ∀ ρ, ρ ≠ r → s.client.pc ρ ≠ .asking)
    (hself : s'.Answered r ↔ s.Answered r) (ρ : Ref) : s'.Answered ρ ↔ s.Answered ρ := by
  by_cases hr : ρ = r
  · rw [hr]
    exact hself
  · rw [Answered, Answered, hpc, Function.update_of_ne hr]
    rcases hcl with heq | hnone
    · rw [heq]
    · exact or_congr_right (iff_of_false (fun h => hnone ρ hr h.1) fun h => hnone ρ hr h.1)

theorem no_asking_of_main (hl : s.client.Locks) (hne : s.client.main ≠ .terminated)
    (hholds : s.client.main.Holds) (r : Ref) : s.client.pc r ≠ .asking := by
  intro hpc
  have hreq := (hl.waiter r).mpr (by rw [hpc]; trivial)
  rw [(hl.main hne).mpr hholds] at hreq
  cases hreq

theorem eq_of_holds {c : MgrClient} {ρ : Ref} (hl : c.Locks) (hr : (c.pc r).Holds)
    (hρ : (c.pc ρ).Holds) : ρ = r := by
  have hreq := (hl.waiter r).mpr hr
  rw [(hl.waiter ρ).mpr hρ] at hreq
  cases hreq
  rfl

theorem no_asking_of_waiter (hl : s.client.Locks) (hr : (s.client.pc r).Holds) (ρ : Ref)
    (hne : ρ ≠ r) : s.client.pc ρ ≠ .asking := fun hpc =>
  hne (eq_of_holds hl hr (by rw [hpc]; trivial))

/-- No thread waits for results while another answer is about to be given. -/
theorem Wire.no_asking (h : s.Wire) (hl : s.client.Locks) {m : Request} {rest : List Request}
    {kind : AnswerKind} (hserver : s.toServer = m :: rest) (hm : m.kinds = [kind])
    (hkind : kind ≠ .perf_ptr) (r : Ref) : s.client.pc r ≠ .asking := by
  intro hpc
  have hreq := (hl.waiter r).mpr (by rw [hpc]; trivial)
  have hnil : rest = [] := h.rest_eq_nil hserver (by simp [hm])
  have hdual := h.dual
  rw [due, due_of_waiter hreq, hpc, hserver, hnil, List.flatMap_singleton, hm] at hdual
  have hlast := congrArg List.getLast? hdual
  rw [List.getLast?_concat] at hlast
  cases hlast
  exact hkind rfl

theorem hand_of_not_sent {c : MgrClient} (h : ∀ r, c.main ≠ .sent r) : c.hand = [] := by
  unfold MgrClient.hand
  split
  · rename_i r hr
    exact absurd hr (h r)
  · rfl

theorem hand_of_not_holds {c : MgrClient} (h : ¬ c.main.Holds) : c.hand = [] :=
  hand_of_not_sent fun r hr => h (by rw [hr]; trivial)

theorem fresh_of_hand {c : MgrClient} (h : r ∈ c.hand) : c.main.fresh = some r := by
  unfold MgrClient.hand at h
  split at h
  · rename_i r' hr
    rw [hr, List.mem_singleton.mp h]
    rfl
  · cases h

/-! ### Steps of the client -/

/-- What is answered for is neither open nor in hand. -/
theorem Queue.not_open (h : s.Queue gone old rest) (hbook : s.client.Book)
    (hret : s.client.pc r ≠ .returned) (hans : s.Answered r) : r ∉ rest ++ s.client.hand := by
  intro hmem
  rcases List.mem_append.mp hmem with hrest | hhand
  · exact h.rest_open r hrest hans
  · exact (hbook.fresh r (fresh_of_hand hhand)).2 (hbook.running r hret)

theorem Queue.client (h : s.Queue gone old rest) (hserver : s'.server = s.server)
    (hcarried : s'.carried = s.carried)
    (hpending : s'.client.pending_transactions = s.client.pending_transactions)
    (hhand : s'.client.hand = s.client.hand)
    (hkey : ∀ r ∈ rest ++ s.client.hand, s'.client.key r = s.client.key r)
    (hans : ∀ r, s'.Answered r ↔ s.Answered r) : s'.Queue gone old rest where
  pending_eq := by rw [hpending, h.pending_eq]
  answered_eq := by rw [hserver, h.answered_eq]
  outstanding_eq := by
    rw [hhand, List.map_congr_left hkey, h.outstanding_eq, outstanding, outstanding, hserver,
      hcarried]
  old_answered r hr := (hans r).mpr (h.old_answered r hr)
  rest_open r hr hans' := h.rest_open r hr ((hans r).mp hans')

theorem Queue.main (h : s.Queue gone old rest) (hserver : s'.server = s.server)
    (hcarried : s'.carried = s.carried)
    (hpending : s'.client.pending_transactions = s.client.pending_transactions)
    (hhand : s.client.hand = []) (hhand' : s'.client.hand = [])
    (hkey : ∀ r ∈ s.client.pending_transactions, s'.client.key r = s.client.key r)
    (hans : ∀ r, s'.Answered r ↔ s.Answered r) : s'.Queue gone old rest := by
  refine h.client hserver hcarried hpending (hhand'.trans hhand.symm) (fun r hr => hkey r ?_) hans
  rw [hhand, List.append_nil] at hr
  rw [h.pending_eq]
  exact List.mem_append_right _ hr

theorem carried_of_eq (hserver : s'.server = s.server) (hto : s'.toServer = s.toServer) :
    s'.carried = s.carried :=
  carried_append hserver (by rw [hto, List.append_nil]) fun _ hm => absurd hm List.not_mem_nil

theorem carried_send {m : Request} (c : MgrClient) (hm : ¬ m.IsTransaction) :
    ((s.withClient c).send m).carried = s.carried :=
  carried_append rfl rfl fun x hx => by rwa [List.mem_singleton.mp hx]

theorem Queue.send (h : s.Queue gone old rest) (hoffer : s.Offer) {t : Transaction}
    (hmain : s.client.main = .accepted r) (ht : s.client.heap r = some t) :
    ((s.withClient (s.client.goto (.sent r))).send (MgrClient.payload t)).Queue gone old rest := by
  have hmade := hoffer.fresh r t (by rw [hmain]; rfl) ht
  have hhand : s.client.hand = [] := hand_of_not_sent (by simp [hmain])
  have hcarried : ((s.withClient (s.client.goto (.sent r))).send (MgrClient.payload t)).carried
      = s.carried ++ [t.key] := by
    rw [carried, System.send, List.flatMap_append, List.flatMap_singleton]
    refine congrArg₂ (· ++ ·) rfl ?_
    rw [← hmade.payload_keys, ← hoffer.setup_eq]
    rfl
  have hold := h.outstanding_eq
  rw [hhand, List.append_nil] at hold
  refine ⟨h.pending_eq, h.answered_eq, ?_, h.old_answered, h.rest_open⟩
  rw [outstanding, hcarried, ← List.append_assoc]
  exact (List.map_append ..).trans (congrArg₂ (· ++ ·) hold (by
    simp only [System.send, withClient, MgrClient.hand, MgrClient.goto, List.map_cons, List.map_nil]
    rw [← MgrClient.key_of_some ht]
    rfl))

theorem Queue.spawn (h : s.Queue gone old rest) (hbook : s.client.Book) {t : Transaction}
    (hmain : s.client.main = .sent r) (ht : s.client.heap r = some t) :
    (s.withClient (s.client.spawn r t)).Queue gone old (rest ++ [r]) := by
  obtain ⟨-, hnot⟩ := hbook.fresh r (by rw [hmain]; rfl)
  have hhand : s.client.hand = [r] := by rw [MgrClient.hand, hmain]
  have hkey : ∀ ρ, (s.client.spawn r t).key ρ = s.client.key ρ := by
    intro ρ
    by_cases hr : ρ = r
    · rw [hr, MgrClient.key_of_some (Function.update_self ..), MgrClient.key_of_some ht]
      rfl
    · exact MgrClient.key_congr (Function.update_of_ne hr ..)
  have hans : ∀ ρ, ρ ≠ r → ((s.withClient (s.client.spawn r t)).Answered ρ ↔ s.Answered ρ) := by
    intro ρ hr
    have hpc : (s.client.spawn r t).pc ρ = s.client.pc ρ := Function.update_of_ne hr ..
    rw [Answered, Answered, withClient, hpc]
  have hne : ∀ ρ ∈ old ++ rest, ρ ≠ r := by
    rintro ρ hρ rfl
    rw [← h.pending_eq] at hρ
    exact hnot hρ
  refine ⟨?_, h.answered_eq, ?_, fun ρ hρ => ?_, fun ρ hρ => ?_⟩
  · rw [← List.append_assoc, ← h.pending_eq]
    rfl
  · have hold := h.outstanding_eq
    rw [hhand] at hold
    rw [hand_of_not_holds (c := (s.withClient (s.client.spawn r t)).client) id, List.append_nil]
    exact (List.map_congr_left fun ρ _ => hkey ρ).trans hold
  · exact (hans ρ (hne ρ (List.mem_append_left _ hρ))).mpr (h.old_answered ρ hρ)
  · rcases List.mem_append.mp hρ with hold | hnew
    · rw [hans ρ (hne ρ (List.mem_append_right _ hold))]
      exact h.rest_open ρ hold
    · rw [List.mem_singleton.mp hnew]
      have hpc : (s.withClient (s.client.spawn r t)).client.pc r = .start := Function.update_self ..
      simp [Answered, hpc, WaiterPc.Received]

theorem Queue.join (h : s.Queue gone old rest) (hbook : s.client.Book) {w : WaitForRes}
    {main : MainPc} (hmain : s.client.main = .joining r w) (hpc : s.client.pc r = .returned)
    (hcalm : main.Calm) :
    ∃ old', (s.withClient (s.client.pop r main)).Queue (gone ++ [r]) old' rest := by
  obtain ⟨tail, htail⟩ := List.head?_eq_some_iff.mp (hbook.joining r w hmain)
  have hans : s.Answered r := Or.inl (by rw [hpc]; trivial)
  have hhand : s.client.hand = [] := hand_of_not_sent (by simp [hmain])
  have hhand' : (s.client.pop r main).hand = [] :=
    hand_of_not_holds hcalm.not_holds
  cases old with
  | nil =>
      refine absurd hans (h.rest_open r ?_)
      have hpending := h.pending_eq
      rw [htail, List.nil_append] at hpending
      rw [← hpending]
      exact List.mem_cons_self
  | cons ρ old =>
      have hpending := h.pending_eq
      rw [htail, List.cons_append, List.cons.injEq] at hpending
      obtain ⟨rfl, hpending⟩ := hpending
      refine ⟨old, ?_, ?_, ?_, fun ρ hρ => h.old_answered ρ (List.mem_cons_of_mem _ hρ),
        h.rest_open⟩
      · exact (congrArg List.tail htail).trans hpending
      · refine h.answered_eq.trans ?_
        rw [List.append_assoc, List.singleton_append]
      · have hold := h.outstanding_eq
        rw [hhand] at hold
        exact (congrArg (fun l => (rest ++ l).map s.client.key) hhand').trans hold

theorem Queue.mainMoves (h : s.Queue gone old rest) (hoffer : s.Offer) (hc : s.client.Inv)
    (hsession : s.server.session ≠ .ended) (hover : ¬ s'.client.main.Over)
    (hmoves : s.MainMoves s') : ∃ gone old rest, s'.Queue gone old rest := by
  have hcalm : ∀ {c : MgrClient}, c.main.Calm → c.hand = [] := fun h =>
    hand_of_not_holds h.not_holds
  cases hmoves with
  | @created mode timeout t main hmain hmade hmain' =>
      refine ⟨gone, old, rest, h.main rfl (carried_of_eq rfl rfl) rfl
        (hand_of_not_sent (by simp [hmain])) (hand_of_not_sent ?_) (fun r hr => ?_)
        (answered_congr rfl rfl)⟩
      · rcases hmain' with rfl | ⟨rfl, -⟩ <;> exact nofun
      · have hne : r ≠ s.client.created := Nat.ne_of_lt (hc.book.known r hr)
        exact MgrClient.key_congr
          ((Function.update_of_ne hne ..).trans (Function.update_of_ne hne ..))
  | goto hmain hcalm' =>
      refine ⟨gone, old, rest, h.main rfl (carried_of_eq rfl rfl) rfl ?_ (hcalm hcalm')
        (fun _ _ => rfl) (answered_congr rfl rfl)⟩
      rcases hmain with hmain | ⟨w, hmain⟩ <;> exact hand_of_not_sent (by simp [hmain])
  | size hmain =>
      exact ⟨gone, old, rest, h.main rfl (carried_of_eq rfl rfl) rfl
        (hand_of_not_sent (by simp [hmain])) rfl (fun _ _ => rfl) (answered_congr rfl rfl)⟩
  | ask hmain hreq =>
      exact ⟨gone, old, rest, h.main rfl (carried_send _ id) rfl
        (hand_of_not_sent (by simp [hmain])) rfl (fun _ _ => rfl) (answered_congr rfl rfl)⟩
  | @answered r memorySize b answers hmain hanswers =>
      have hnone := no_asking_of_main hc.locks (by simp [hmain]) (by rw [hmain]; trivial)
      refine ⟨gone, old, rest, h.main rfl (carried_of_eq rfl rfl) ?_
        (hand_of_not_sent (by simp [hmain])) ?_ ?_ (answered_of_no_asking ?_ hnone)⟩
      all_goals cases b <;> first | rfl | exact fun _ _ => rfl
  | send hmain ht => exact ⟨gone, old, rest, h.send hoffer hmain ht⟩
  | spawn hmain ht => exact ⟨gone, old, _, h.spawn hc.book hmain ht⟩
  | request hmain hreq =>
      exact ⟨gone, old, rest, h.main rfl (carried_send _ id) rfl
        (hand_of_not_sent (by simp [hmain])) rfl (fun _ _ => rfl) (answered_congr rfl rfl)⟩
  | unanswered hmain hcalm' =>
      exact ⟨gone, old, rest, h.main rfl (carried_of_eq rfl rfl) rfl
        (hand_of_not_sent (by simp [hmain])) (hcalm hcalm') (fun _ _ => rfl)
        (answered_congr rfl rfl)⟩
  | exchanged hmain hanswers hq hcalm' =>
      exact ⟨gone, old, rest, h.main rfl (carried_of_eq rfl rfl) rfl
        (hand_of_not_sent (by simp [hmain])) (hcalm hcalm') (fun _ _ => rfl)
        (answered_of_no_asking rfl
          (no_asking_of_main hc.locks (by simp [hmain]) (by rw [hmain]; trivial)))⟩
  | fails hmain hgone => exact absurd hgone.1 hsession
  | @setTimeOut w r tail t hmain hpending ht =>
      refine ⟨gone, old, rest, h.main rfl (carried_of_eq rfl rfl) rfl
        (hand_of_not_sent (by simp [hmain])) rfl (fun ρ _ => ?_) (answered_congr rfl rfl)⟩
      by_cases hr : ρ = r
      · have hself : (s.client.setTimeOut w r t).heap r
            = some { t with mTimeOut := w.timeout_millisec.toNat } := Function.update_self ..
        rw [hr]
        exact (MgrClient.key_of_some hself).trans (MgrClient.key_of_some ht).symm
      · exact MgrClient.key_congr (Function.update_of_ne hr ..)
  | join hmain hpc hcalm' =>
      obtain ⟨old', h'⟩ := h.join hc.book hmain hpc hcalm'
      exact ⟨_, old', rest, h'⟩
  | destroy hmain hreq => exact absurd trivial hover
  | release hmain =>
      refine absurd ?_ hover
      simp only [withClient, MgrClient.release, MgrClient.goto]
      split <;> trivial

theorem Queue.waiter (h : s.Queue gone old rest) (hserver : s'.server = s.server)
    (hcarried : s'.carried = s.carried)
    (hpending : s'.client.pending_transactions = s.client.pending_transactions)
    (hmain : s'.client.main = s.client.main)
    (hkey : ∀ ρ ∈ rest ++ s.client.hand, s'.client.key ρ = s.client.key ρ)
    (hans : ∀ ρ, s'.Answered ρ ↔ s.Answered ρ) : s'.Queue gone old rest :=
  h.client hserver hcarried hpending (by rw [MgrClient.hand, MgrClient.hand, hmain]) hkey hans

theorem Queue.waiterMoves {t : Transaction} (h : s.Queue gone old rest) (hwire : s.Wire)
    (hc : s.client.Inv) (ht : s.client.heap r = some t) (hsession : s.server.session ≠ .ended)
    (hmoves : s.WaiterMoves r t s') : s'.Queue gone old rest := by
  have hset : ∀ (t' : Transaction), s.client.pc r ≠ .returned → s.Answered r →
      ∀ ρ ∈ rest ++ s.client.hand, (s.client.setTrans r t').key ρ = s.client.key ρ := by
    intro t' hret hans ρ hρ
    refine MgrClient.key_congr (Function.update_of_ne ?_ ..)
    rintro rfl
    exact h.not_open hc.book hret hans hρ
  have hstep : ∀ {pc pc' : WaiterPc} {s' : System}, s.client.pc r = pc →
      s'.client.pc = Function.update s.client.pc r pc' →
      (pc.Received ↔ pc'.Received) → pc ≠ .asking → pc' ≠ .asking →
      (s'.toClient = s.toClient ∨ pc.Holds) → ∀ ρ, s'.Answered ρ ↔ s.Answered ρ := by
    intro pc pc' s' hpc hpc' hiff hne hne' hcl
    refine answered_of_waiter hpc' (hcl.imp id fun hholds ρ => ?_) ?_
    · exact no_asking_of_waiter hc.locks (by rwa [hpc]) ρ
    · rw [Answered, Answered, hpc', Function.update_self, hpc]
      exact or_congr hiff.symm (iff_of_false (fun h => hne' h.1) fun h => hne h.1)
  cases hmoves with
  | lockQuery hpc hquery =>
      exact h.waiter rfl (carried_of_eq rfl rfl) rfl rfl (fun _ _ => rfl)
        (hstep hpc rfl Iff.rfl (by simp) (by simp) (Or.inl rfl))
  | test hpc =>
      refine h.waiter rfl (carried_of_eq rfl rfl) rfl rfl (fun _ _ => rfl)
        (hstep hpc rfl ?_ (by simp) ?_ (Or.inl rfl))
      · split <;> exact Iff.rfl
      · split <;> simp
  | query hpc hreq =>
      exact h.waiter rfl (carried_send _ id) rfl rfl (fun _ _ => rfl)
        (hstep hpc rfl Iff.rfl (by simp) (by simp) (Or.inl rfl))
  | queried hpc hanswers hpc' =>
      refine h.waiter rfl (carried_of_eq rfl rfl) rfl rfl (fun _ _ => rfl)
        (hstep hpc rfl ?_ (by simp) ?_ (Or.inr trivial))
      · rw [hpc']
        split <;> exact Iff.rfl
      · rw [hpc']
        split <;> simp
  | lockReq hpc hreq =>
      exact h.waiter rfl (carried_of_eq rfl rfl) rfl rfl (fun _ _ => rfl)
        (hstep hpc rfl Iff.rfl (by simp) (by simp) (Or.inl rfl))
  | unlockQuery hpc =>
      exact h.waiter rfl (carried_of_eq rfl rfl) rfl rfl (fun _ _ => rfl)
        (hstep hpc rfl Iff.rfl (by simp) (by simp) (Or.inl rfl))
  | wait hpc =>
      have hreq := (hc.locks.waiter r).mpr (by rw [hpc]; trivial)
      have hempty := (hwire.silent (by rw [due_of_waiter hreq, hpc]; rfl)).1
      refine h.waiter rfl (carried_send _ id) rfl rfl (fun _ _ => rfl)
        (answered_of_waiter rfl (Or.inl rfl) ?_)
      have hpc' : (s.client.waiterGoto r .asking).pc r = .asking := Function.update_self ..
      simp [Answered, System.send, withClient, hpc, hpc', hempty, WaiterPc.Received]
  | recvStatus hpc hanswers =>
      refine h.waiter rfl (carried_of_eq rfl rfl) rfl rfl (fun _ _ => rfl)
        (answered_of_waiter rfl
          (Or.inr (no_asking_of_waiter hc.locks (by rw [hpc]; trivial))) ?_)
      refine iff_of_true (Or.inl ?_) (Or.inr ⟨hpc, by simp [hanswers]⟩)
      rw [show (System.withClient s (s.client.waiterGoto r _)).taken.client.pc r = _ from
        Function.update_self ..]
      trivial
  | setStatus hpc =>
      exact h.waiter rfl (carried_of_eq rfl rfl) rfl rfl
        (hset _ (by simp [hpc]) (Or.inl (by rw [hpc]; trivial)))
        (hstep hpc rfl Iff.rfl (by simp) (by simp) (Or.inl rfl))
  | recvFromAie hpc hanswers =>
      exact h.waiter rfl (carried_of_eq rfl rfl) rfl rfl
        (hset _ (by simp [hpc]) (Or.inl (by rw [hpc]; trivial)))
        (hstep hpc rfl Iff.rfl (by simp) (by simp) (Or.inr trivial))
  | recvPerf hpc hanswers =>
      exact h.waiter rfl (carried_of_eq rfl rfl) rfl rfl
        (hset _ (by simp [hpc]) (Or.inl (by rw [hpc]; trivial)))
        (hstep hpc rfl Iff.rfl (by simp) (by simp) (Or.inr trivial))
  | unlockReq hpc =>
      exact h.waiter rfl (carried_of_eq rfl rfl) rfl rfl (fun _ _ => rfl)
        (hstep hpc rfl Iff.rfl (by simp) (by simp) (Or.inl rfl))
  | handleOutputs hpc ht' =>
      exact h.waiter rfl (carried_of_eq rfl rfl) rfl rfl
        (hset _ (by simp [hpc]) (Or.inl (by rw [hpc]; trivial)))
        (hstep hpc rfl Iff.rfl (by simp) (by simp) (Or.inl rfl))
  | throws hpc hgone => exact absurd hgone.1 hsession

/-! ### Who is answered next -/

theorem key_fst_of_known {c : MgrClient} (ho : c.Owns) (hover : ¬ c.main.Over)
    (hr : r < c.created) :
    (c.key r).1 = (transId r).toNat := by
  obtain ⟨t, ht⟩ := ho.heap hover r hr
  rw [MgrClient.key_of_some ht]
  exact (ho.known r t ht).2

/-- The ids the server has not answered for are different. -/
theorem nodup_unserved {m : MgrServer} (hm : m.Inv) (hpending : m.pending = [])
    (hanswered : ∀ a, m.session ≠ .answered a) : (m.unserved.map m.idOf).Nodup := by
  have hqueue := hm.book.queue_eq
  rw [hpending, List.append_nil] at hqueue
  have hnodup := hm.record.nodup
  rw [hm.record.answered_eq, MgrServer.unanswered_of_ne hanswered, hqueue] at hnodup
  rw [MgrServer.unserved_of_ne hanswered]
  exact (List.nodup_append.mp hnodup).2.1

/-- While no transaction is on its way, the ids agree. -/
theorem Queue.ids (h : s.Queue gone old rest) (hc : s.client.Inv) (hover : ¬ s.client.main.Over)
    (hcarried : s.carried = []) (hhand : s.client.hand = []) :
    rest.map s.client.key = s.server.unserved.map s.server.key
      ∧ rest.map (fun r => (transId r).toNat) = s.server.unserved.map s.server.idOf := by
  have hkeys := h.outstanding_eq
  rw [hhand, List.append_nil, outstanding, hcarried, List.append_nil] at hkeys
  have hfst := congrArg (List.map Prod.fst) hkeys
  rw [List.map_map, List.map_map] at hfst
  refine ⟨hkeys, ?_⟩
  calc rest.map (fun r => (transId r).toNat) = rest.map (Prod.fst ∘ s.client.key) := by
        refine List.map_congr_left fun r hr => (key_fst_of_known hc.owns hover ?_).symm
        exact hc.book.known r (by rw [h.pending_eq]; exact List.mem_append_right _ hr)
    _ = s.server.unserved.map (Prod.fst ∘ s.server.key) := hfst
    _ = s.server.unserved.map s.server.idOf :=
        List.map_congr_left fun a _ => s.server.key_fst a

/-- The server answers for the first transaction that is open, and its waiter waits for that. -/
theorem Queue.joining (h : s.Queue gone old rest) (hreceipt : s.Receipt) (hwire : s.Wire)
    (hc : s.client.Inv) (hm : s.server.Inv) (hover : ¬ s.client.main.Over) {a : Addr}
    (hsession : s.server.session = .joining a) (hpc : s.client.pc r = .asking)
    (hempty : s.toClient = []) :
    ∃ rest' threads, rest = r :: rest' ∧ s.server.pl_threads = a :: threads
      ∧ s.client.hand = [] ∧ s.carried = [] ∧ s.client.key r = s.server.key a := by
  have hholds : (s.client.pc r).Holds := by rw [hpc]; trivial
  have hmain : ¬ s.client.main.Holds := by
    intro hmain
    by_cases hne : s.client.main = .terminated
    · rw [hne] at hover
      exact hover trivial
    · exact no_asking_of_main hc.locks hne hmain r hpc
  have hhand := hand_of_not_holds hmain
  have hcarried : s.carried = [] :=
    carried_eq_nil (hwire.free (by rw [hsession]; exact id)).2
  have hnot : ¬ s.Answered r := by
    rintro (hrec | ⟨-, hcl⟩)
    · rw [hpc] at hrec
      exact hrec
    · exact hcl hempty
  have hpending : r ∈ s.client.pending_transactions := hc.book.running r (by simp [hpc])
  have hrest : r ∈ rest := by
    rw [h.pending_eq] at hpending
    exact (List.mem_append.mp hpending).resolve_left fun hold => hnot (h.old_answered r hold)
  have hhead : s.server.pl_threads.head? = some a := by
    have hok := hm.book.session_ok
    rwa [hsession] at hok
  obtain ⟨threads, hthreads⟩ := List.head?_eq_some_iff.mp hhead
  have hanswered : ∀ b, s.server.session ≠ .answered b := by simp [hsession]
  obtain ⟨houtstanding, hids⟩ := h.ids hc hover hcarried hhand
  rw [MgrServer.unserved_of_ne hanswered] at houtstanding hids
  cases rest with
  | nil => cases hrest
  | cons ρ rest' =>
      rw [hthreads, List.map_cons, List.map_cons, List.cons.injEq] at hids houtstanding
      have hnodup := nodup_unserved hm (MgrServer.pending_of_ne (by simp [hsession])) hanswered
      rw [MgrServer.unserved_of_ne hanswered, hthreads, List.map_cons, ← hids.1, ← hids.2,
        List.nodup_cons] at hnodup
      have hid : (transId ρ).toNat = (transId r).toNat := by
        rw [hids.1, hreceipt.joining a hsession r hpc]
      have hr : r = ρ := by
        refine (List.mem_cons.mp hrest).resolve_right fun hmem => hnodup.1 ?_
        rw [hid]
        exact List.mem_map_of_mem (f := fun ρ => (transId ρ).toNat) hmem
      subst hr
      exact ⟨rest', threads, rfl, hthreads, hhand, hcarried, houtstanding.1⟩

/-! ### Steps of the server -/

theorem Queue.server (h : s.Queue gone old rest) (hclient : s'.client = s.client)
    (hids : answeredIds s'.server.log = answeredIds s.server.log)
    (houtstanding : s'.outstanding = s.outstanding)
    (hans : ∀ r, s'.Answered r ↔ s.Answered r) : s'.Queue gone old rest where
  pending_eq := by rw [hclient, h.pending_eq]
  answered_eq := by rw [hids, h.answered_eq]
  outstanding_eq := by rw [hclient, houtstanding, h.outstanding_eq]
  old_answered r hr := (hans r).mpr (h.old_answered r hr)
  rest_open r hr hans' := h.rest_open r hr ((hans r).mp hans')

theorem Queue.serve (h : s.Queue gone old rest) {m : Request} {requests : List Request}
    (hclient : s'.client = s.client) (hserver : s'.server = s.server)
    (hto : s.toServer = m :: requests) (hto' : s'.toServer = requests) (hm : ¬ m.IsTransaction)
    (hans : ∀ r, s'.Answered r ↔ s.Answered r) : s'.Queue gone old rest := by
  refine h.server hclient (by rw [hserver]) ?_ hans
  have hcarried : s'.carried = s.carried := by
    rw [carried, carried, perfWords, perfWords, hserver, hto, hto', List.flatMap_cons,
      keys_eq_nil _ hm, List.nil_append]
  rw [outstanding, outstanding, hserver, hcarried]

theorem Queue.received (h : s.Queue gone old rest) (hoffer : s.Offer) (hm : s.server.Inv) {a : Addr}
    {n : UInt64} {umode : UInt8} {id timeout : UInt32} {q : MgrServer.Payload}
    {requests : List Request} {t : Transaction} (hsession : s.server.session = .created a n)
    (hto : s.toServer = .transaction umode id timeout q :: requests)
    (ht : s.server.heap a = some t) :
    ({ s with server := s.server.spawn a (q.fill t), toServer := requests } : System).Queue gone old
      rest := by
  obtain ⟨hid, hperf⟩ := hoffer.created a n hsession umode id timeout q requests hto t ht
  obtain ⟨-, hnot⟩ := hm.book.transactions_of_created hsession
  have hheap : ∀ b ∈ s.server.pl_threads,
      (s.server.spawn a (q.fill t)).heap b = s.server.heap b := by
    intro b hb
    refine Function.update_of_ne ?_ ..
    rintro rfl
    exact hnot hb
  have hkey : (s.server.spawn a (q.fill t)).key a
      = (id.toNat, q.cfg_ptr.length, s.perfWords, q.to_aie_ptr.length, q.from_aie_size.toNat) := by
    rw [MgrServer.key_of_some (Function.update_self ..)]
    simp only [Transaction.key, PlBuffers.sizes, Transaction.buffers, MgrServer.Payload.fill,
      List.length_replicate, hid, hperf]
  refine h.server rfl rfl ?_ fun r => answered_congr rfl rfl r
  rw [outstanding, outstanding, MgrServer.unserved_of_ne (by simp [MgrServer.spawn]),
    MgrServer.unserved_of_ne (by simp [hsession]), carried, carried, hto, List.flatMap_cons]
  simp only [MgrServer.spawn, List.map_append, List.map_cons, List.map_nil, List.append_assoc]
  refine congrArg₂ (· ++ ·) (MgrServer.map_key_congr hheap) (congrArg₂ (· ++ ·) ?_ rfl)
  rw [Request.keys, ← hkey]
  rfl

/-- The results of the first open transaction are sent. -/
theorem Queue.joined (h : s.Queue gone old rest) (hreceipt : s.Receipt) (hwire : s.Wire)
    (hc : s.client.Inv) (hm : s.server.Inv) (hover : ¬ s.client.main.Over) {a : Addr}
    {t : Transaction} (hsession : s.server.session = .joining a)
    (ht : s.server.heap a = some t) :
    ∃ r rest', ({ s with
      server := s.server.answer a t
      toClient := s.toClient ++
        [.status t.status, .from_aie_ptr t.from_aie_ptr, .perf_ptr t.perf_ptr] } : System).Queue
        gone
          (old ++ [r]) rest' := by
  obtain ⟨r, hreq, hpc, hempty⟩ := hwire.joining hsession
  obtain ⟨rest', threads, rfl, hthreads, hhand, hcarried, hkey⟩ :=
    h.joining hreceipt hwire hc hm hover hsession hpc hempty
  have hid : t.trans_id = (transId r).toNat := by
    rw [← hreceipt.joining a hsession r hpc, MgrServer.idOf_of_some ht]
  have hnodup := hc.book.nodup
  rw [h.pending_eq, List.nodup_append, List.nodup_cons] at hnodup
  refine ⟨r, rest', ?_, ?_, ?_, fun ρ hρ => ?_, fun ρ hρ hans => ?_⟩
  · rw [h.pending_eq, List.append_assoc, List.singleton_append]
  · have hlog : answeredIds (s.server.answer a t).log = answeredIds s.server.log
      ++ [t.trans_id] := by
      rw [answeredIds, MgrServer.answer, List.filterMap_append]
      rfl
    have hmap : (gone ++ old ++ [r]).map (fun ρ => (transId ρ).toNat) =
        (gone ++ old).map (fun ρ => (transId ρ).toNat) ++ [(transId r).toNat] := by simp
    rw [hlog, h.answered_eq, hid, ← List.append_assoc, hmap]
  · have hold := h.outstanding_eq
    rw [hhand, List.append_nil, outstanding, hcarried, List.append_nil,
      MgrServer.unserved_of_ne (by simp [hsession]), hthreads, List.map_cons, List.map_cons,
      List.cons.injEq] at hold
    have hunserved : (s.server.answer a t).unserved = threads := congrArg List.tail hthreads
    rw [outstanding, hunserved, hhand, List.append_nil, hold.2]
    refine (List.append_nil _).symm.trans (congrArg₂ (· ++ ·) rfl ?_)
    exact hcarried.symm
  · rcases List.mem_append.mp hρ with hold | hnew
    · exact (h.old_answered ρ hold).imp id fun hasking => ⟨hasking.1, by simp⟩
    · rw [List.mem_singleton.mp hnew]
      exact Or.inr ⟨hpc, by simp⟩
  · rcases hans with hrec | ⟨hasking, -⟩
    · exact h.rest_open ρ (List.mem_cons_of_mem r hρ) (Or.inl hrec)
    · obtain rfl : ρ = r := eq_of_holds hc.locks (by rw [hpc]; trivial) (by
        rw [show s.client.pc ρ = .asking from hasking]
        trivial)
      exact hnodup.2.1.1 hρ

theorem Queue.retired (h : s.Queue gone old rest) (hm : s.server.Inv) {a : Addr} {t : Transaction}
    (hsession : s.server.session = .answered a) :
    ({ s with server := s.server.retire a t } : System).Queue gone old rest := by
  have hhead : s.server.pl_threads.head? = some a := by
    have hok := hm.book.session_ok
    rw [hsession] at hok
    exact hok.1
  obtain ⟨threads, hthreads⟩ := List.head?_eq_some_iff.mp hhead
  have hqueue := hm.book.queue_eq
  rw [MgrServer.pending_of_ne (by simp [hsession]), List.append_nil, hthreads] at hqueue
  have hnodup := hm.book.nodup
  rw [hqueue, List.nodup_cons] at hnodup
  refine h.server rfl rfl ?_ fun r => answered_congr rfl rfl r
  have hunserved : (s.server.retire a t).unserved = threads := by
    rw [MgrServer.unserved_of_ne (by simp [MgrServer.retire]), MgrServer.retire, hthreads,
      List.erase_cons_head]
  have hunserved' : s.server.unserved = threads := by
    rw [MgrServer.unserved, hsession]
    exact congrArg List.tail hthreads
  rw [outstanding, outstanding, hunserved, hunserved']
  refine congrArg₂ (· ++ ·) (MgrServer.map_key_congr fun b hb => ?_) rfl
  exact Function.update_of_ne (by rintro rfl; exact hnodup.1 hb) ..

theorem Queue.thread (h : s.Queue gone old rest) {m' : MgrServer}
    (hmoves : s.server.ThreadMoves m') :
    ({ s with server := m' } : System).Queue gone old rest := by
  have hframe := hmoves.frame
  refine h.server rfl hmoves.ids.2 ?_ fun r => answered_congr rfl rfl r
  rw [outstanding, outstanding, carried, carried, perfWords, perfWords, setup_of_threadMoves hmoves,
    hframe.key_eq', MgrServer.unserved, MgrServer.unserved, hframe.session_eq, hframe.pl_threads_eq]

theorem Queue.serverMoves (h : s.Queue gone old rest) (hreceipt : s.Receipt) (hoffer : s.Offer)
    (hwire : s.Wire) (hc : s.client.Inv) (hm : s.server.Inv) (hover : ¬ s.client.main.Over)
    (hsession' : s'.server.session ≠ .ended) (hmoves : s.ServerMoves s') :
    ∃ gone old rest, s'.Queue gone old rest := by
  cases hmoves with
  | ended hclient hserver => exact absurd (by rw [hserver]; rfl) hsession'
  | refused hsession hserver hgt =>
      exact ⟨gone, old, rest, h.serve rfl rfl hserver rfl id
        (answered_of_no_asking rfl (hwire.no_asking hc.locks hserver rfl (by simp)))⟩
  | admitted hsession hserver hle =>
      refine ⟨gone, old, rest, h.server rfl rfl ?_
        (answered_of_no_asking rfl (hwire.no_asking hc.locks hserver rfl (by simp)))⟩
      rw [outstanding, outstanding, carried, carried, hserver,
        MgrServer.unserved_of_ne (by simp), MgrServer.unserved_of_ne (by simp [hsession])]
      rfl
  | queried hsession hserver ha ht =>
      exact ⟨gone, old, rest, h.serve rfl rfl hserver rfl id
        (answered_of_no_asking rfl (hwire.no_asking hc.locks hserver rfl (by simp)))⟩
  | @waits trans_id timeout requests a t hsession hserver ha ht hid =>
      refine ⟨gone, old, rest, h.server rfl rfl ?_ (answered_congr rfl rfl)⟩
      have hkey : ∀ b, (s.server.setTrans a { t with mTimeOut := timeout.toNat }).key b
          = s.server.key b := by
        intro b
        by_cases hb : b = a
        · have hself : (s.server.setTrans a { t with mTimeOut := timeout.toNat }).heap a
              = some { t with mTimeOut := timeout.toNat } := Function.update_self ..
          rw [hb]
          exact (MgrServer.key_of_some hself).trans (MgrServer.key_of_some ht).symm
        · refine congrArg (fun u : Option Transaction => (u.map Transaction.key).getD _) ?_
          exact Function.update_of_ne hb ..
      rw [outstanding, outstanding, carried, carried, hserver,
        MgrServer.unserved_of_ne (by simp), MgrServer.unserved_of_ne (by simp [hsession])]
      exact congrArg₂ (· ++ ·) (List.map_congr_left fun b _ => hkey b) rfl
  | @other q requests hsession hserver =>
      refine ⟨gone, old, rest, ?_⟩
      cases q with
      | setTimeOut t => exact h.serve rfl rfl hserver rfl id (answered_congr rfl rfl)
      | _ =>
          exact h.serve rfl rfl hserver rfl id
            (answered_of_no_asking rfl (hwire.no_asking hc.locks hserver rfl (by simp)))
  | @created a n umode id timeout q requests mode hsession hserver ha hid =>
      refine ⟨gone, old, rest, h.server rfl ?_ ?_ (answered_congr rfl rfl)⟩
      · exact filterMap_append_none _ (by simp [Event.answeredId])
      · rw [outstanding, outstanding, MgrServer.unserved_of_ne (by simp [MgrServer.accept]),
          MgrServer.unserved_of_ne (by simp [hsession])]
        refine congrArg₂ (· ++ ·) (MgrServer.map_key_congr fun b hb => ?_) rfl
        exact Function.update_of_ne (hm.book.ne_of_heap_none ha (hm.book.mem_transactions hb)) ..
  | received hsession hserver ht hq hsize =>
      exact ⟨gone, old, rest, h.received hoffer hm hsession hserver ht⟩
  | joined hsession hpc ht =>
      obtain ⟨r, rest', h'⟩ := h.joined hreceipt hwire hc hm hover hsession ht
      exact ⟨gone, _, rest', h'⟩
  | retired hsession ht => exact ⟨gone, old, rest, h.retired hm hsession⟩
  | thread hsession hstep hl =>
      exact ⟨gone, old, rest, h.thread (MgrServer.threadMoves_of_step hm hl hstep)⟩

/-! ### What a waiter asks for and gets -/

theorem Receipt.main (h : s.Receipt) (hserver : s'.server = s.server)
    {extra : List Request} (hto : s'.toServer = s.toServer ++ extra)
    (hextra : ∀ m ∈ extra, ∀ id timeout, m ≠ .waitForTestHarness id timeout)
    (hpc : ∀ r, (s'.client.pc r).Receives → s'.client.pc r = s.client.pc r)
    (hheap : ∀ r t', (s.client.pc r).Receives → s'.client.heap r = some t' →
      ∃ t, s.client.heap r = some t ∧ t'.from_aie_ptr.length = t.from_aie_ptr.length
        ∧ t'.perf_ptr.length = t.perf_ptr.length)
    (hcl : ∀ answer ∈ s'.toClient, answer ∈ s.toClient) : s'.Receipt := by
  have hasking : ∀ r, s'.client.pc r = .asking → s.client.pc r = .asking := fun r hr =>
    (hpc r (by rw [hr]; trivial)).symm.trans hr
  refine ⟨fun id timeout hmem r hr => ?_, fun a ha r hr => ?_, fun r t' hr ht' answer hanswer => ?_⟩
  · rw [hto] at hmem
    refine h.request id timeout ((List.mem_append.mp hmem).resolve_right fun hnew => ?_) r
      (hasking r hr)
    exact hextra _ hnew id timeout rfl
  · rw [hserver] at ha ⊢
    exact h.joining a ha r (hasking r hr)
  · rw [hpc r hr] at hr
    obtain ⟨t, ht, hfrom, hperf⟩ := hheap r t' hr ht'
    exact (h.fits r t hr ht answer (hcl answer hanswer)).congr hfrom hperf

theorem Receipt.goto (h : s.Receipt) (hserver : s'.server = s.server) {extra : List Request}
    (hto : s'.toServer = s.toServer ++ extra)
    (hextra : ∀ m ∈ extra, ∀ id timeout, m ≠ .waitForTestHarness id timeout)
    (hpc : s'.client.pc = s.client.pc) (hheap : s'.client.heap = s.client.heap)
    (hcl : ∀ answer ∈ s'.toClient, answer ∈ s.toClient) : s'.Receipt :=
  h.main hserver hto hextra (fun r _ => by rw [hpc])
    (fun r t' _ ht' => ⟨t', by rwa [hheap] at ht', rfl, rfl⟩) hcl

theorem Receipt.setTrans (h : s.Receipt) (hserver : s'.server = s.server)
    (hto : s'.toServer = s.toServer) (hpc : ∀ r, (s'.client.pc r).Receives →
      s'.client.pc r = s.client.pc r) {t t' : Transaction} (ht : s.client.heap r = some t)
    (hheap : s'.client.heap = Function.update s.client.heap r (some t'))
    (hfrom : t'.from_aie_ptr.length = t.from_aie_ptr.length)
    (hperf : t'.perf_ptr.length = t.perf_ptr.length) (hcl : s'.toClient = s.toClient) :
    s'.Receipt := by
  refine h.main hserver (hto.trans (List.append_nil _).symm) (by simp) hpc
    (fun ρ u _ hu => ?_) fun answer hanswer => by rwa [hcl] at hanswer
  by_cases hρ : ρ = r
  · rw [hheap, hρ, Function.update_self] at hu
    cases hu
    exact ⟨t, by rw [hρ, ht], hfrom, hperf⟩
  · rw [hheap, Function.update_of_ne hρ] at hu
    exact ⟨u, hu, rfl, rfl⟩

theorem Receipt.mainMoves (h : s.Receipt) (hc : s.client.Inv) (hsession : s.server.session ≠ .ended)
    (hmoves : s.MainMoves s') : s'.Receipt := by
  have hno : ∀ {m : Request}, (∀ id timeout, m ≠ .waitForTestHarness id timeout) →
      ∀ x ∈ [m], ∀ id timeout, x ≠ .waitForTestHarness id timeout := fun hm x hx => by
    rwa [List.mem_singleton.mp hx]
  cases hmoves with
  | @created mode timeout t main hmain hmade hmain' =>
      refine h.main rfl (List.append_nil _).symm (by simp) (fun _ _ => rfl) (fun r t' hr ht' => ?_)
        fun _ => id
      have hne : r ≠ s.client.created := by
        refine Nat.ne_of_lt (hc.book.known r (hc.book.running r fun hret => ?_))
        rw [hret] at hr
        exact hr
      have hold : (((s.client.create mode timeout).setTrans s.client.created t).goto main).heap r
          = s.client.heap r :=
        (Function.update_of_ne hne ..).trans (Function.update_of_ne hne ..)
      exact ⟨t', hold.symm.trans ht', rfl, rfl⟩
  | goto hmain hcalm =>
      exact h.goto rfl (List.append_nil _).symm (by simp) rfl rfl fun _ => id
  | size hmain => exact h.goto rfl (List.append_nil _).symm (by simp) rfl rfl fun _ => id
  | ask hmain hreq => exact h.goto rfl rfl (hno (by simp)) rfl rfl fun _ => id
  | @answered r memorySize b answers hmain hanswers =>
      cases b <;>
        exact h.goto rfl (List.append_nil _).symm (by simp) rfl rfl fun _ => List.mem_of_mem_tail
  | send hmain ht =>
      exact h.goto rfl rfl (hno (by simp [MgrClient.payload])) rfl rfl fun _ => id
  | @spawn r t hmain ht =>
      refine h.setTrans rfl rfl (fun ρ hρ => Function.update_of_ne ?_ ..) ht rfl rfl rfl rfl
      rintro rfl
      rw [show (s.withClient (s.client.spawn ρ t)).client.pc ρ = .start from
        Function.update_self ..] at hρ
      exact hρ
  | request hmain hreq => exact h.goto rfl rfl (hno (by simp)) rfl rfl fun _ => id
  | unanswered hmain hcalm =>
      exact h.goto rfl (List.append_nil _).symm (by simp) rfl rfl fun _ => id
  | exchanged hmain hanswers hq hcalm =>
      exact h.goto rfl (List.append_nil _).symm (by simp) rfl rfl fun _ => List.mem_of_mem_tail
  | fails hmain hgone => exact absurd hgone.1 hsession
  | setTimeOut hmain hpending ht => exact h.setTrans rfl rfl (fun _ _ => rfl) ht rfl rfl rfl rfl
  | join hmain hpc hcalm => exact h.goto rfl (List.append_nil _).symm (by simp) rfl rfl fun _ => id
  | destroy hmain hreq =>
      refine h.main rfl rfl (hno (by simp)) (fun _ _ => rfl) (fun r t' _ ht' => ⟨t', ?_, rfl, rfl⟩)
        fun _ => id
      simp only [withClient, System.send, MgrClient.destroy, MgrClient.lockReq] at ht'
      split at ht'
      · cases ht'
      · exact ht'
  | release hmain => exact h.goto rfl (List.append_nil _).symm (by simp) rfl rfl fun _ => id

theorem Receipt.waiter (h : s.Receipt) (hserver : s'.server = s.server) {extra : List Request}
    (hto : s'.toServer = s.toServer ++ extra)
    (hextra : ∀ m ∈ extra, ∀ id timeout, m ≠ .waitForTestHarness id timeout) {pc : WaiterPc}
    (hpc : s'.client.pc = Function.update s.client.pc r pc) (hrec : ¬ pc.Receives)
    (hheap : ∀ ρ, ρ ≠ r → s'.client.heap ρ = s.client.heap ρ)
    (hcl : ∀ answer ∈ s'.toClient, answer ∈ s.toClient) : s'.Receipt := by
  have hne : ∀ ρ, (s'.client.pc ρ).Receives → ρ ≠ r := by
    rintro ρ hρ rfl
    rw [hpc, Function.update_self] at hρ
    exact hrec hρ
  have hold : ∀ ρ, (s'.client.pc ρ).Receives → s'.client.pc ρ = s.client.pc ρ := fun ρ hρ => by
    rw [hpc, Function.update_of_ne (hne ρ hρ)]
  refine ⟨fun id timeout hmem ρ hρ => ?_, fun a ha ρ hρ => ?_, fun ρ t hρ ht answer hanswer => ?_⟩
  · have hρ' := hold ρ (by rw [hρ]; trivial)
    rw [hto] at hmem
    refine h.request id timeout ((List.mem_append.mp hmem).resolve_right fun hnew => ?_) ρ
      (hρ'.symm.trans hρ)
    exact hextra _ hnew id timeout rfl
  · have hρ' := hold ρ (by rw [hρ]; trivial)
    rw [hserver] at ha ⊢
    exact h.joining a ha ρ (hρ'.symm.trans hρ)
  · rw [hheap ρ (hne ρ hρ)] at ht
    rw [hold ρ hρ] at hρ
    exact h.fits ρ t hρ ht answer (hcl answer hanswer)

theorem Receipt.receives (h : s.Receipt) (hserver : s'.server = s.server)
    (hto : s'.toServer = s.toServer) {pc : WaiterPc}
    (hpc : s'.client.pc = Function.update s.client.pc r pc) (hne : pc ≠ .asking)
    (hrec : (s.client.pc r).Receives) {t : Transaction} (ht : s.client.heap r = some t)
    (hheap : ∀ ρ, ρ ≠ r → s'.client.heap ρ = s.client.heap ρ)
    (hself : ∀ t', s'.client.heap r = some t' → t'.from_aie_ptr.length = t.from_aie_ptr.length
      ∧ t'.perf_ptr.length = t.perf_ptr.length)
    (hcl : ∀ answer ∈ s'.toClient, answer ∈ s.toClient) : s'.Receipt := by
  have hasking : ∀ ρ, s'.client.pc ρ = .asking → s.client.pc ρ = .asking := by
    intro ρ hρ
    by_cases hr : ρ = r
    · rw [hpc, hr, Function.update_self] at hρ
      exact absurd hρ hne
    · rwa [hpc, Function.update_of_ne hr] at hρ
  refine ⟨fun id timeout hmem ρ hρ => h.request id timeout (by rwa [hto] at hmem) ρ (hasking ρ hρ),
    fun a ha ρ hρ => ?_, fun ρ u hρ hu answer hanswer => ?_⟩
  · rw [hserver] at ha ⊢
    exact h.joining a ha ρ (hasking ρ hρ)
  · by_cases hr : ρ = r
    · subst hr
      obtain ⟨hfrom, hperf⟩ := hself u hu
      exact (h.fits ρ t hrec ht answer (hcl answer hanswer)).congr hfrom hperf
    · rw [hheap ρ hr] at hu
      rw [hpc, Function.update_of_ne hr] at hρ
      exact h.fits ρ u hρ hu answer (hcl answer hanswer)

/-- A waiter asks for its results. -/
theorem receipt_of_wait (hwire : s.Wire) (hc : s.client.Inv) {t : Transaction}
    (ht : s.client.heap r = some t) (hpc : s.client.pc r = .ask) :
    ((s.withClient (s.client.waiterGoto r .asking)).send
      (.waitForTestHarness (UInt32.ofNat t.trans_id) (UInt32.ofNat t.mTimeOut))).Receipt := by
  have hholds : (s.client.pc r).Holds := by rw [hpc]; trivial
  have hreq := (hc.locks.waiter r).mpr hholds
  obtain ⟨hempty, hkinds, hsilent⟩ := hwire.silent (by rw [due_of_waiter hreq, hpc]; rfl)
  have hself : ∀ ρ, (s.client.waiterGoto r .asking).pc ρ = .asking → ρ = r := by
    intro ρ hρ
    by_contra hr
    rw [show (s.client.waiterGoto r .asking).pc ρ = s.client.pc ρ from
      Function.update_of_ne hr ..] at hρ
    exact hr (eq_of_holds hc.locks hholds (by rw [hρ]; trivial))
  refine ⟨fun id timeout hmem ρ hρ => ?_, fun a ha => ?_, fun ρ u _ _ answer hanswer => ?_⟩
  · rcases List.mem_append.mp hmem with hold | hnew
    · cases hsilent _ hold
    · cases List.mem_singleton.mp hnew
      rw [hself ρ hρ, (hc.owns.known r t ht).2, UInt32.ofNat_toNat]
  · replace ha : s.server.session = .joining a := ha
    rw [ha] at hkinds
    cases hkinds
  · replace hanswer : answer ∈ s.toClient := hanswer
    rw [hempty] at hanswer
    cases hanswer

theorem Receipt.waiterMoves {t : Transaction} (h : s.Receipt) (hwire : s.Wire) (hc : s.client.Inv)
    (ht : s.client.heap r = some t) (hsession : s.server.session ≠ .ended)
    (hmoves : s.WaiterMoves r t s') : s'.Receipt := by
  have hset : ∀ (t' : Transaction), ∀ ρ, ρ ≠ r →
      (s.client.setTrans r t').heap ρ = s.client.heap ρ :=
      fun t' ρ hρ => Function.update_of_ne hρ ..
  have hself : ∀ {t' u : Transaction}, (s.client.setTrans r t').heap r = some u → t' = u := by
    intro t' u hu
    have hheap : (s.client.setTrans r t').heap r = some t' := Function.update_self ..
    exact Option.some.inj (hheap.symm.trans hu)
  cases hmoves with
  | lockQuery hpc hquery =>
      exact h.waiter (r := r) rfl (List.append_nil _).symm (by simp) rfl id (fun _ _ => rfl)
        fun _ => id
  | test hpc =>
      refine h.waiter rfl (List.append_nil _).symm (by simp) rfl ?_ (fun _ _ => rfl) fun _ => id
      split <;> exact id
  | query hpc hreq =>
      refine h.waiter rfl rfl (fun m hm => ?_) rfl id (fun _ _ => rfl) fun _ => id
      cases List.mem_singleton.mp hm
      exact nofun
  | queried hpc hanswers hpc' =>
      refine h.waiter rfl (List.append_nil _).symm (by simp) rfl ?_ (fun _ _ => rfl)
        fun _ => List.mem_of_mem_tail
      rw [hpc']
      split <;> exact id
  | lockReq hpc hreq =>
      exact h.waiter rfl (List.append_nil _).symm (by simp) rfl id (fun _ _ => rfl) fun _ => id
  | unlockQuery hpc =>
      exact h.waiter (r := r) rfl (List.append_nil _).symm (by simp) rfl id (fun _ _ => rfl)
        fun _ => id
  | wait hpc => exact receipt_of_wait hwire hc ht hpc
  | recvStatus hpc hanswers =>
      exact h.receives rfl rfl rfl nofun (by rw [hpc]; trivial) ht (fun _ _ => rfl)
        (fun t' ht' => by cases ht.symm.trans ht'; exact ⟨rfl, rfl⟩) fun _ => List.mem_of_mem_tail
  | setStatus hpc =>
      exact h.receives rfl rfl rfl nofun (by rw [hpc]; trivial) ht (hset _)
        (fun t' ht' => by cases hself ht'; exact ⟨rfl, rfl⟩) fun _ => id
  | recvFromAie hpc hanswers =>
      have hfits :=
        h.fits r t (by rw [hpc]; trivial) ht _ (by rw [hanswers]; exact List.mem_cons_self)
      exact h.receives rfl rfl rfl nofun (by rw [hpc]; trivial) ht (hset _)
        (fun t' ht' => by cases hself ht'; exact ⟨hfits, rfl⟩) fun _ => List.mem_of_mem_tail
  | recvPerf hpc hanswers =>
      exact h.waiter rfl (List.append_nil _).symm (by simp) rfl id (hset _)
        fun _ => List.mem_of_mem_tail
  | unlockReq hpc =>
      exact h.waiter rfl (List.append_nil _).symm (by simp) rfl id (fun _ _ => rfl) fun _ => id
  | handleOutputs hpc ht' =>
      exact h.waiter rfl (List.append_nil _).symm (by simp) rfl id (hset _) fun _ => id
  | throws hpc hgone => exact absurd hgone.1 hsession

theorem Receipt.server (h : s.Receipt) (hclient : s'.client = s.client)
    (hto : ∀ m ∈ s'.toServer, m ∈ s.toServer)
    (hjoining : ∀ a, s'.server.session = .joining a → s.server.session = .joining a
      ∧ s'.server.idOf a = s.server.idOf a)
    (hcl : ∀ answer ∈ s'.toClient, answer ∈ s.toClient ∨ ∀ t, answer.Fits t) : s'.Receipt := by
  refine ⟨fun id timeout hmem r hr => ?_, fun a ha r hr => ?_, fun r t hr ht answer hanswer => ?_⟩
  · rw [hclient] at hr
    exact h.request id timeout (hto _ hmem) r hr
  · rw [hclient] at hr
    rw [(hjoining a ha).2]
    exact h.joining a (hjoining a ha).1 r hr
  · rw [hclient] at hr ht
    exact (hcl answer hanswer).elim (h.fits r t hr ht answer) fun hfits => hfits t

/-- The results that are sent are of the sizes the client expects. -/
theorem Receipt.joined (h : s.Receipt) (hqueue : s.Queue gone old rest) (hwire : s.Wire)
    (hc : s.client.Inv) (hm : s.server.Inv) (hover : ¬ s.client.main.Over) {a : Addr}
    {t : Transaction} (hsession : s.server.session = .joining a)
    (ht : s.server.heap a = some t) :
    ({ s with
      server := s.server.answer a t
      toClient := s.toClient ++
        [.status t.status, .from_aie_ptr t.from_aie_ptr, .perf_ptr t.perf_ptr] } :
        System).Receipt := by
  obtain ⟨r, hreq, hpc, hempty⟩ := hwire.joining hsession
  obtain ⟨rest', threads, -, -, -, -, hkey⟩ :=
    hqueue.joining h hwire hc hm hover hsession hpc hempty
  refine ⟨h.request, (by rintro _ ⟨⟩), fun ρ u hρ hu answer hanswer => ?_⟩
  replace hρ : (s.client.pc ρ).Receives := hρ
  replace hu : s.client.heap ρ = some u := hu
  obtain rfl : ρ = r := by
    refine eq_of_holds hc.locks (by rw [hpc]; trivial) ?_
    exact WaiterPc.holds_of_receives hρ
  rw [MgrClient.key_of_some hu, MgrServer.key_of_some ht] at hkey
  have hperf : u.perf_ptr.length = t.perf_ptr.length := Transaction.perf_length_of_key hkey
  have hfrom : u.from_aie_ptr.length = t.from_aie_ptr.length :=
    congrArg (fun key : Key => key.2.2.2.2) hkey
  simp only [hempty, List.nil_append, List.mem_cons, List.not_mem_nil, or_false] at hanswer
  rcases hanswer with rfl | rfl | rfl
  · trivial
  · exact hfrom.symm
  · exact hperf.symm

theorem Receipt.serverMoves (h : s.Receipt) (hqueue : s.Queue gone old rest) (hwire : s.Wire)
    (hc : s.client.Inv) (hm : s.server.Inv) (hover : ¬ s.client.main.Over)
    (hsession' : s'.server.session ≠ .ended) (hmoves : s.ServerMoves s') : s'.Receipt := by
  have hadd : ∀ {new : Answer}, (∀ t, new.Fits t) → ∀ answer ∈ s.toClient ++ [new],
      answer ∈ s.toClient ∨ ∀ t, answer.Fits t := fun hnew answer hanswer =>
    (List.mem_append.mp hanswer).imp id fun hmem => by rwa [List.mem_singleton.mp hmem]
  cases hmoves with
  | ended hclient hserver => exact absurd (by rw [hserver]; rfl) hsession'
  | refused hsession hserver hgt =>
      exact h.server rfl (mem_of_rest hserver) (fun a ha => absurd ha (by simp [hsession]))
        (hadd fun _ => trivial)
  | admitted hsession hserver hle =>
      exact h.server rfl (mem_of_rest hserver) (by rintro _ ⟨⟩) (hadd fun _ => trivial)
  | queried hsession hserver ha ht =>
      exact h.server rfl (mem_of_rest hserver) (fun a ha => absurd ha (by simp [hsession]))
        (hadd fun _ => trivial)
  | @waits trans_id timeout requests a t hsession hserver ha ht hid =>
      refine ⟨fun id t hmem r hr => h.request id t (mem_of_rest hserver _ hmem) r hr,
        fun b hb r hr => ?_, h.fits⟩
      cases hb
      rw [MgrServer.idOf_of_some (Function.update_self ..), ← h.request trans_id timeout
        (by rw [hserver]; exact List.mem_cons_self) r hr]
      exact hid.symm
  | @other q requests hsession hserver =>
      cases q with
      | setTimeOut t =>
          exact h.server rfl (mem_of_rest hserver)
            (fun a ha => absurd ha (by simp [serveOther, hsession])) fun _ => Or.inl
      | _ =>
          exact h.server rfl (mem_of_rest hserver)
            (fun a ha => absurd ha (by simp [serveOther, hsession])) (hadd fun _ => trivial)
  | created hsession hserver ha hid =>
      exact h.server rfl (fun _ => id) (by rintro _ ⟨⟩) fun _ => Or.inl
  | received hsession hserver ht hq hsize =>
      exact h.server rfl (mem_of_rest hserver) (by rintro _ ⟨⟩) fun _ => Or.inl
  | joined hsession hpc ht => exact h.joined hqueue hwire hc hm hover hsession ht
  | retired hsession ht => exact h.server rfl (fun _ => id) (by rintro _ ⟨⟩) fun _ => Or.inl
  | thread hsession hstep hl =>
      have hframe := (MgrServer.threadMoves_of_step hm hl hstep).frame
      exact h.server rfl (fun _ => id)
        (fun a ha => ⟨hframe.session_eq.symm.trans ha, by rw [hframe.idOf_eq]⟩) fun _ => Or.inl

/-! ### All runs -/

structure Link (s : System) : Prop where
  receipt : s.Receipt
  queue : ∃ gone old rest, s.Queue gone old rest

variable {setup : Setup} {graphs : Nat} {monitorInterval : UInt64} {C : SystemLabel → System → Prop}

theorem link_new (setup : Setup) (graphs : Nat) (monitorInterval : UInt64) :
    (new setup graphs monitorInterval).Link where
  receipt := ⟨nofun, nofun, nofun⟩
  queue := ⟨[], [], [], rfl, rfl, rfl, nofun, nofun⟩

structure Served (s : System) : Prop where
  client : s.client.Inv
  server : s.server.Inv
  wire : s.Wire
  offer : s.Offer

theorem served_of_run (hrun : lts.RunIf C (.new setup graphs monitorInterval) s)
    (hsession : s.server.session ≠ .ended) : s.Served :=
  ⟨MgrClient.inv_of_run hrun, server_inv_of_run hrun hsession, wire_of_run hrun hsession,
    offer_of_run hrun hsession⟩

theorem Link.step (h : s.Link) (hs : s.Served) {l : SystemLabel} (hstep : lts.step l s = some s')
    (hsession' : s'.server.session ≠ .ended) (hover : ¬ s'.client.main.Over) : s'.Link := by
  have hsession := session_ne_of_step hstep hsession'
  have hover' : ¬ s.client.main.Over := fun h => hover (over_of_step h hstep)
  obtain ⟨gone, old, rest, hqueue⟩ := h.queue
  rcases step_cases hstep with hserver | ⟨-, hmain⟩ | ⟨-, r, t, ht, hwaiter⟩
  · exact ⟨h.receipt.serverMoves hqueue hs.wire hs.client hs.server hover' hsession' hserver,
      hqueue.serverMoves h.receipt hs.offer hs.wire hs.client hs.server hover' hsession' hserver⟩
  · exact ⟨h.receipt.mainMoves hs.client hsession hmain,
      hqueue.mainMoves hs.offer hs.client hsession hover hmain⟩
  · exact ⟨h.receipt.waiterMoves hs.wire hs.client ht hsession hwaiter,
      gone, old, rest, hqueue.waiterMoves hs.wire hs.client ht hsession hwaiter⟩

theorem link_of_run (hrun : lts.RunIf C (.new setup graphs monitorInterval) s)
    (hsession : s.server.session ≠ .ended) (hover : ¬ s.client.main.Over) : s.Link := by
  refine hrun.invariant_of
    (I := fun s => s.server.session ≠ .ended → ¬ s.client.main.Over → s.Link)
    (J := fun s => s.server.session ≠ .ended → s.Served)
    (fun s hs => served_of_run hs) ?_ (fun _ _ => link_new setup graphs monitorInterval) hsession
    hover
  intro l s s' hJ hI _ hstep hsession' hover'
  have hsession := session_ne_of_step hstep hsession'
  exact (hI hsession fun h => hover' (over_of_step h hstep)).step
    (hJ hsession) hstep hsession' hover'

end System

end AieTestHarness
