import AieTestHarness.Proof.Client
import AieTestHarness.Proof.Pipeline

/-!
# What is on the wire

Every exchange holds `req_mtx`, so the answers that are due are those one thread waits for: the ones
on their way, the ones the session thread is about to send and the ones of the requests it has not
read. A transaction is sent if and only if the session thread has answered that it accepts one.
-/

namespace AieTestHarness

inductive AnswerKind where
  | trans_accepted
  | status
  | from_aie_ptr
  | perf_ptr
  | graph_started
  | timeout_seconds
  deriving DecidableEq

def Answer.kind : Answer → AnswerKind
  | .trans_accepted _ => .trans_accepted
  | .status _ => .status
  | .from_aie_ptr _ => .from_aie_ptr
  | .perf_ptr _ => .perf_ptr
  | .graph_started _ => .graph_started
  | .timeout_seconds _ => .timeout_seconds

def OtherRequest.kinds : OtherRequest → List AnswerKind
  | .runAIEGraph _ _ | .waitForGraph _ => [.graph_started]
  | .getTimeOut => [.timeout_seconds]
  | .setTimeOut _ => []

def Request.kinds : Request → List AnswerKind
  | .runTestHarness _ => [.trans_accepted]
  | .transaction _ _ _ _ => []
  | .queryTransactionStatus _ => [.status]
  | .waitForTestHarness _ _ => [.status, .from_aie_ptr, .perf_ptr]
  | .other q => q.kinds
  | .destroy => []

def Request.IsTransaction : Request → Prop
  | .transaction _ _ _ _ => True
  | _ => False

def SessionPc.kinds : SessionPc → List AnswerKind
  | .joining _ => [.status, .from_aie_ptr, .perf_ptr]
  | _ => []

def SessionPc.Needs : SessionPc → Prop
  | .admitted _ | .created _ _ => True
  | _ => False

def MainPc.due : MainPc → List AnswerKind
  | .asking _ _ => [.trans_accepted]
  | .exchanging q _ => q.kinds
  | _ => []

def WaiterPc.due : WaiterPc → List AnswerKind
  | .querying => [.status]
  | .asking => [.status, .from_aie_ptr, .perf_ptr]
  | .received _ | .fromAie => [.from_aie_ptr, .perf_ptr]
  | .perf => [.perf_ptr]
  | _ => []

def MgrClient.due (c : MgrClient) : List AnswerKind :=
  match c.req_mtx with
  | none => []
  | some .main => c.main.due
  | some (.waiter r) => (c.pc r).due

namespace System

variable {s s' : System} {r : Ref}

/-- The answers that are still to be received. -/
def due (s : System) : List AnswerKind :=
  s.toClient.map Answer.kind ++ s.server.session.kinds ++ s.toServer.flatMap Request.kinds

def Owes (s : System) : Prop :=
  (∃ r, s.client.main = .accepted r) ∨ .trans_accepted true ∈ s.toClient

structure Wire (s : System) : Prop where
  dual : s.due = s.client.due
  last : ∀ m ∈ s.toServer.dropLast, m.kinds = []
  needs : s.server.session.Needs → (s.Owes ∧ s.toServer = []) ∨
    ¬ s.Owes ∧ ∃ m rest, s.toServer = m :: rest ∧ m.IsTransaction ∧ ∀ m ∈ rest, ¬ m.IsTransaction
  free : ¬ s.server.session.Needs → ¬ s.Owes ∧ ∀ m ∈ s.toServer, ¬ m.IsTransaction
  created : ∀ a trans_size, s.server.session = .created a trans_size → s.toServer ≠ []
  /-- No call of `runTestHarness` is served while results are sent. -/
  answered : ∀ a, s.server.session = .answered a →
    (∀ r, s.client.main ≠ .sent r) ∧ ∀ b, .trans_accepted b ∉ s.toClient

theorem mem_of_rest {m : Request} {rest : List Request} (hserver : s.toServer = m :: rest) :
    ∀ x ∈ rest, x ∈ s.toServer := by
  intro x hx
  rw [hserver]
  exact List.mem_cons_of_mem m hx

/-! ### What a client waits for -/

theorem due_of_none {c : MgrClient} (h : c.req_mtx = none) : c.due = [] := by
  rw [MgrClient.due, h]

theorem due_of_main {c : MgrClient} (h : c.req_mtx = some .main) : c.due = c.main.due := by
  rw [MgrClient.due, h]

theorem due_of_waiter {c : MgrClient} (h : c.req_mtx = some (.waiter r)) :
    c.due = (c.pc r).due := by
  rw [MgrClient.due, h]

theorem due_of_update {c : MgrClient} {f : Ref → WaiterPc} {pc : WaiterPc}
    (h : c.req_mtx = some (.waiter r)) (hpc : c.pc = Function.update f r pc) : c.due = pc.due := by
  rw [due_of_waiter h, hpc, Function.update_self]

theorem due_congr_main {c c' : MgrClient} (hl : c.Locks) (hne : c.main ≠ .terminated)
    (hreq : c'.req_mtx = c.req_mtx) (hpc : c'.pc = c.pc)
    (hmain : c.main.Holds → c'.main.due = c.main.due) : c'.due = c.due := by
  rw [MgrClient.due, MgrClient.due, hreq, hpc]
  split
  · rfl
  · rename_i h
    exact hmain ((hl.main hne).mp h)
  · rfl

theorem due_congr_waiter {c c' : MgrClient} (hreq : c'.req_mtx = c.req_mtx)
    (hmain : c'.main = c.main)
    {pc : WaiterPc} (hpc : c'.pc = Function.update c.pc r pc) (hdue : pc.due = (c.pc r).due) :
    c'.due = c.due := by
  rw [MgrClient.due, MgrClient.due, hreq, hmain, hpc]
  split
  · rfl
  · rfl
  · rename_i ρ h
    by_cases hr : ρ = r
    · rw [hr, Function.update_self, hdue]
    · rw [Function.update_of_ne hr]

/-! ### Steps of the client -/

theorem Wire.quiet (h : s.Wire) (hserver : s'.server = s.server) (hto : s'.toServer = s.toServer)
    (hcl : s'.toClient = s.toClient) (hdue : s'.client.due = s.client.due)
    (haccepted : ∀ r, s'.client.main = .accepted r ↔ s.client.main = .accepted r)
    (hsent : ∀ r, s'.client.main = .sent r → s.client.main = .sent r) : s'.Wire where
  dual := by rw [hdue, ← h.dual, due, due, hserver, hto, hcl]
  last := by rw [hto]; exact h.last
  needs := by
    have howes : s'.Owes ↔ s.Owes := by simp only [Owes, haccepted, hcl]
    rw [hserver, hto, howes]
    exact h.needs
  free := by
    have howes : s'.Owes ↔ s.Owes := by simp only [Owes, haccepted, hcl]
    rw [hserver, hto, howes]
    exact h.free
  created := by rw [hserver, hto]; exact h.created
  answered a ha := by
    rw [hserver] at ha
    rw [hcl]
    exact ⟨fun r hr => (h.answered a ha).1 r (hsent r hr), (h.answered a ha).2⟩

/-- While no answer is due, none is on its way and no request has one. -/
theorem Wire.silent (h : s.Wire) (hdue : s.client.due = []) :
    s.toClient = [] ∧ s.server.session.kinds = [] ∧ ∀ m ∈ s.toServer, m.kinds = [] := by
  have hdual := h.dual
  rw [hdue, due, List.append_eq_nil_iff, List.append_eq_nil_iff, List.map_eq_nil_iff,
    List.flatMap_eq_nil_iff] at hdual
  exact ⟨hdual.1.1, hdual.1.2, hdual.2⟩

/-- A request is sent by a thread that has just locked `req_mtx` or waits for nothing. -/
theorem Wire.request (h : s.Wire) {m : Request} (hdue : s.client.due = [])
    (hserver : s'.server = s.server) (hto : s'.toServer = s.toServer ++ [m])
    (hcl : s'.toClient = s.toClient) (hm : ¬ m.IsTransaction) (hdue' : s'.client.due = m.kinds)
    (haccepted : ∀ r, s'.client.main ≠ .accepted r) (haccepted' : ∀ r, s.client.main ≠ .accepted r)
    (hsent : ∀ r, s'.client.main = .sent r → s.client.main = .sent r) : s'.Wire := by
  obtain ⟨hempty, hkinds, hsilent⟩ := h.silent hdue
  have howes : ¬ s.Owes := by
    rintro (⟨r, hr⟩ | hmem)
    · exact haccepted' r hr
    · rw [hempty] at hmem
      cases hmem
  have howes' : ¬ s'.Owes := by
    rintro (⟨r, hr⟩ | hmem)
    · exact haccepted r hr
    · rw [hcl, hempty] at hmem
      cases hmem
  refine ⟨?_, ?_, fun hneeds => ?_, fun hfree => ⟨howes', ?_⟩, fun a n ha => ?_, fun a ha => ?_⟩
  · rw [due, hserver, hto, hcl, hempty, hkinds, hdue', List.flatMap_append,
      List.flatMap_eq_nil_iff.mpr hsilent]
    simp
  · rw [hto, List.dropLast_concat]
    exact hsilent
  · rw [hserver] at hneeds
    rcases h.needs hneeds with ⟨hold, -⟩ | ⟨-, m', rest, hrest, hm', hrest'⟩
    · exact absurd hold howes
    · refine Or.inr ⟨howes', m', rest ++ [m], by rw [hto, hrest, List.cons_append], hm', ?_⟩
      intro x hx
      rcases List.mem_append.mp hx with hold | hnew
      · exact hrest' x hold
      · rwa [List.mem_singleton.mp hnew]
  · rw [hserver] at hfree
    intro x hx
    rw [hto] at hx
    rcases List.mem_append.mp hx with hold | hnew
    · exact (h.free hfree).2 x hold
    · rwa [List.mem_singleton.mp hnew]
  · rw [hto]
    simp
  · rw [hserver] at ha
    rw [hcl]
    exact ⟨fun r hr => (h.answered a ha).1 r (hsent r hr), (h.answered a ha).2⟩

/-- The session waits for a transaction that has not been sent. -/
theorem Wire.owed (h : s.Wire) (howes : s.Owes) : s.server.session.Needs ∧ s.toServer = [] := by
  have hneeds : s.server.session.Needs := by
    by_contra hfree
    exact (h.free hfree).1 howes
  rcases h.needs hneeds with ⟨-, hnil⟩ | ⟨hnot, -⟩
  · exact ⟨hneeds, hnil⟩
  · exact absurd howes hnot

theorem Wire.transaction (h : s.Wire) {m : Request} (hmain : s.client.main = .accepted r)
    (hdue : s.client.due = []) (hserver : s'.server = s.server)
    (hto : s'.toServer = s.toServer ++ [m])
    (hcl : s'.toClient = s.toClient) (hm : m.IsTransaction) (hdue' : s'.client.due = [])
    (hmain' : s'.client.main = .sent r) : s'.Wire := by
  obtain ⟨hempty, hkinds, hsilent⟩ := h.silent hdue
  obtain ⟨hneeds, hnil⟩ := h.owed (Or.inl ⟨r, hmain⟩)
  have howes' : ¬ s'.Owes := by
    rintro (⟨r', hr'⟩ | hmem)
    · rw [hmain'] at hr'
      cases hr'
    · rw [hcl, hempty] at hmem
      cases hmem
  have hto' : s'.toServer = [m] := by rw [hto, hnil, List.nil_append]
  have hmkinds : m.kinds = [] := by cases m <;> first | rfl | cases hm
  refine ⟨?_, ?_, fun _ => ?_, fun hfree => ?_, fun a n ha => ?_, fun a ha => ?_⟩
  · rw [due, hserver, hto', hcl, hempty, hkinds, hdue', List.flatMap_singleton, hmkinds]
    rfl
  · rw [hto']
    simp
  · exact Or.inr ⟨howes', m, [], hto', hm, by simp⟩
  · rw [hserver] at hfree
    exact absurd hneeds hfree
  · rw [hto']
    simp
  · rw [hserver] at ha
    rw [ha] at hneeds
    cases hneeds

theorem Wire.take (h : s.Wire) {answer : Answer} {answers : List Answer}
    (hcl : s.toClient = answer :: answers) (hserver : s'.server = s.server)
    (hto : s'.toServer = s.toServer) (hcl' : s'.toClient = answers)
    (hdue : s.client.due = answer.kind :: s'.client.due)
    (howes : s'.Owes ↔ s.Owes)
    (hsent : ∀ r, s'.client.main = .sent r → s.client.main = .sent r) : s'.Wire where
  dual := by
    have hdual := h.dual
    rw [due, hcl, hdue, List.map_cons, List.cons_append, List.cons_append,
      List.cons_inj_right] at hdual
    rw [due, hserver, hto, hcl', hdual]
  last := by rw [hto]; exact h.last
  needs := by
    rw [hserver, hto, howes]
    exact h.needs
  free := by
    rw [hserver, hto, howes]
    exact h.free
  created := by rw [hserver, hto]; exact h.created
  answered a ha := by
    rw [hserver] at ha
    refine ⟨fun r hr => (h.answered a ha).1 r (hsent r hr), fun b hb => (h.answered a ha).2 b ?_⟩
    rw [hcl]
    rw [hcl'] at hb
    exact List.mem_cons_of_mem answer hb

theorem Wire.calm (h : s.Wire) (hl : s.client.Locks) (hserver : s'.server = s.server)
    (hto : s'.toServer = s.toServer) (hcl : s'.toClient = s.toClient)
    (hreq : s'.client.req_mtx = s.client.req_mtx) (hpc : s'.client.pc = s.client.pc)
    (hne : s.client.main ≠ .terminated) (hholds : ¬ s.client.main.Holds)
    (hmain : s'.client.main = .terminated ∨ ¬ s'.client.main.Holds) : s'.Wire := by
  have hnot : ∀ {main : MainPc}, main = .terminated ∨ ¬ main.Holds →
      (∀ r, main ≠ .accepted r) ∧ ∀ r, main ≠ .sent r := by
    intro main hm
    refine ⟨fun r hr => ?_, fun r hr => ?_⟩ <;> subst hr <;> rcases hm with hm | hm
    · cases hm
    · exact hm trivial
    · cases hm
    · exact hm trivial
  exact h.quiet hserver hto hcl (due_congr_main hl hne hreq hpc fun hm => absurd hm hholds)
    (fun r => iff_of_false ((hnot hmain).1 r) ((hnot (Or.inr hholds)).1 r))
    fun r hr => absurd hr ((hnot hmain).2 r)

theorem Wire.release (h : s.Wire) (hserver : s'.server = s.server)
    (hto : s'.toServer = s.toServer) (hcl : s'.toClient = s.toClient)
    (hreq : s.client.req_mtx = some .main) (hdue : s.client.main.due = [])
    (hreq' : s'.client.req_mtx = none) (haccepted : ∀ r, s.client.main ≠ .accepted r)
    (hholds : ¬ s'.client.main.Holds) : s'.Wire := by
  refine h.quiet hserver hto hcl (by rw [due_of_none hreq', due_of_main hreq, hdue])
    (fun r => iff_of_false (fun hr => hholds ?_) (haccepted r)) fun r hr => absurd ?_ hholds
  · rw [hr]; trivial
  · rw [hr]; trivial

theorem Wire.exchanged (h : s.Wire) {q : OtherRequest} {k : After} {answer : Answer}
    {answers : List Answer} (hmain : s.client.main = .exchanging q k)
    (hreq : s.client.req_mtx = some .main) (hcl : s.toClient = answer :: answers)
    (hq : q.kinds = [answer.kind]) (hserver : s'.server = s.server)
    (hto : s'.toServer = s.toServer) (hcl' : s'.toClient = answers)
    (hreq' : s'.client.req_mtx = none) (hcalm : s'.client.main.Calm) : s'.Wire := by
  have hdue : s.client.due = [answer.kind] := by
    rw [due_of_main hreq, hmain]
    exact hq
  refine h.take hcl hserver hto hcl' (by rw [hdue, due_of_none hreq']) ?_ fun r hr => ?_
  · simp only [Owes, hmain, hcl, hcl', reduceCtorEq, exists_false, false_or, List.mem_cons]
    constructor
    · rintro (⟨r, hr⟩ | hmem)
      · rw [hr] at hcalm
        cases hcalm
      · exact Or.inr hmem
    · rintro (rfl | hmem)
      · cases q <;> cases hq
      · exact Or.inr hmem
  · rw [hr] at hcalm
    cases hcalm

theorem Wire.mainMoves (h : s.Wire) (hc : s.client.Inv) (hsession : s.server.session ≠ .ended)
    (hmoves : s.MainMoves s') : s'.Wire := by
  have hreqMain : s.client.main.Holds → s.client.req_mtx = some .main := fun hm =>
    (hc.locks.main (by rintro heq; rw [heq] at hm; exact hm)).mpr hm
  cases hmoves with
  | created hmain hmade hmain' =>
      refine h.calm hc.locks rfl rfl rfl rfl rfl (by simp [hmain]) (by rw [hmain]; exact id)
        (Or.inr ?_)
      rcases hmain' with rfl | ⟨rfl, -⟩ <;> exact id
  | goto hmain hcalm =>
      rcases hmain with hmain | ⟨w, hmain⟩
      all_goals
        exact h.calm hc.locks rfl rfl rfl rfl rfl (by simp [hmain]) (by rw [hmain]; exact id)
          (Or.inr hcalm.not_holds)
  | size hmain =>
      exact h.calm hc.locks rfl rfl rfl rfl rfl (by simp [hmain]) (by rw [hmain]; exact id)
        (Or.inr id)
  | ask hmain hreq =>
      exact h.request (due_of_none hreq) rfl rfl rfl id rfl (by rintro _ ⟨⟩) (by simp [hmain])
        (by rintro _ ⟨⟩)
  | @answered r memorySize b answers hmain hanswers =>
      have hreq := hreqMain (by rw [hmain]; trivial)
      have hdue : s.client.due = [.trans_accepted] := by rw [due_of_main hreq, hmain]; rfl
      have hnil : answers = [] := by
        have hdual := h.dual
        rw [hdue, due, hanswers, List.map_cons, List.cons_append, List.cons_append,
          List.cons.injEq, List.append_eq_nil_iff, List.append_eq_nil_iff] at hdual
        exact List.map_eq_nil_iff.mp hdual.2.1.1
      subst hnil
      cases b
      · refine h.take hanswers rfl rfl (by rw [System.taken, withClient, hanswers]; rfl)
          (by rw [hdue]; rfl) ?_ (by rintro _ ⟨⟩)
        simp [Owes, hmain, hanswers, System.taken, withClient, MgrClient.answered,
          MgrClient.unlockReq, MgrClient.goto]
      · refine h.take hanswers rfl rfl (by rw [System.taken, withClient, hanswers]; rfl) ?_ ?_
          (by rintro _ ⟨⟩)
        · rw [hdue, due_of_main (c := (s.withClient (s.client.answered r true)).taken.client) hreq]
          rfl
        · simp [Owes, hmain, hanswers, System.taken, withClient, MgrClient.answered, MgrClient.goto]
  | @send r t hmain ht =>
      have hreq := hreqMain (by rw [hmain]; trivial)
      refine h.transaction hmain ?_ rfl rfl rfl trivial ?_ rfl
      · rw [due_of_main hreq, hmain]
        rfl
      · exact due_of_main (c := s.client.goto (.sent r)) hreq
  | spawn hmain ht =>
      exact h.release rfl rfl rfl (hreqMain (by rw [hmain]; trivial)) (by rw [hmain]; rfl) rfl
        (by simp [hmain]) id
  | @request q k hmain hreq =>
      exact h.request (due_of_none hreq) rfl rfl rfl id rfl (by rintro _ ⟨⟩) (by simp [hmain])
        (by rintro _ ⟨⟩)
  | unanswered hmain hcalm =>
      exact h.release rfl rfl rfl (hreqMain (by rw [hmain]; trivial)) (by rw [hmain]; rfl) rfl
        (by simp [hmain]) hcalm.not_holds
  | exchanged hmain hanswers hq hcalm =>
      refine h.exchanged hmain (hreqMain (by rw [hmain]; trivial)) hanswers ?_ rfl rfl
        (by rw [System.taken, withClient, hanswers]; rfl) rfl hcalm
      rcases hq with ⟨rfl, t, rfl⟩ | ⟨⟨g_idx, iters, rfl⟩ | ⟨t, rfl⟩, v, rfl⟩ <;> rfl
  | fails hmain hgone => exact absurd hgone.1 hsession
  | setTimeOut hmain hpending ht =>
      exact h.calm hc.locks rfl rfl rfl rfl rfl (by simp [hmain]) (by rw [hmain]; exact id)
        (Or.inr id)
  | join hmain hpc hcalm =>
      exact h.calm hc.locks rfl rfl rfl rfl rfl (by simp [hmain]) (by rw [hmain]; exact id)
        (Or.inr hcalm.not_holds)
  | destroy hmain hreq =>
      exact h.request (due_of_none hreq) rfl rfl rfl id rfl (by rintro _ ⟨⟩) (by simp [hmain])
        (by rintro _ ⟨⟩)
  | release hmain =>
      have hreq := hreqMain (by rw [hmain]; trivial)
      refine h.quiet rfl rfl rfl ?_ (fun r => iff_of_false ?_ (by simp [hmain])) fun r hr => ?_
      · rw [due_of_main hreq, hmain, due_of_main (c := (s.withClient s.client.release).client) hreq]
        simp only [withClient, MgrClient.release, MgrClient.goto]
        split <;> rfl
      · simp only [withClient, MgrClient.release, MgrClient.goto]
        split <;> simp
      · simp only [withClient, MgrClient.release, MgrClient.goto] at hr
        split at hr <;> cases hr

theorem Wire.waiter (h : s.Wire) (hserver : s'.server = s.server) (hto : s'.toServer = s.toServer)
    (hcl : s'.toClient = s.toClient) (hmain : s'.client.main = s.client.main)
    (hdue : s'.client.due = s.client.due) : s'.Wire :=
  h.quiet hserver hto hcl hdue (fun r => by rw [hmain]) fun r hr => by rwa [hmain] at hr

theorem Wire.received (h : s.Wire) {answer : Answer} {answers : List Answer}
    (hcl : s.toClient = answer :: answers) (hserver : s'.server = s.server)
    (hto : s'.toServer = s.toServer) (hcl' : s'.toClient = answers)
    (hmain : s'.client.main = s.client.main) {kinds : List AnswerKind}
    (hdue : s.client.due = answer.kind :: kinds) (hdue' : s'.client.due = kinds)
    (hanswer : ∀ b, answer ≠ .trans_accepted b) : s'.Wire := by
  refine h.take hcl hserver hto hcl' (by rw [hdue, hdue']) ?_ fun r hr => by rwa [hmain] at hr
  simp only [Owes, hmain, hcl, hcl', List.mem_cons]
  exact or_congr_right ⟨Or.inr, fun hmem => hmem.resolve_left (hanswer true).symm⟩

theorem Wire.waiterMoves {t : Transaction} (h : s.Wire) (hc : s.client.Inv)
    (hsession : s.server.session ≠ .ended) (hmoves : s.WaiterMoves r t s') : s'.Wire := by
  have hreqWaiter : (s.client.pc r).Holds → s.client.req_mtx = some (.waiter r) := fun hr =>
    (hc.locks.waiter r).mpr hr
  have hmain : ∀ {ρ}, s.client.main = .accepted ρ → s.client.req_mtx = some .main := fun hm =>
    (hc.locks.main (by simp [hm])).mpr (by rw [hm]; trivial)
  cases hmoves with
  | lockQuery hpc hquery =>
      exact h.waiter rfl rfl rfl rfl (due_congr_waiter (r := r) rfl rfl rfl (by rw [hpc]; rfl))
  | test hpc =>
      refine h.waiter rfl rfl rfl rfl (due_congr_waiter rfl rfl rfl ?_)
      rw [hpc]
      split <;> rfl
  | query hpc hreq =>
      refine h.request (due_of_none hreq) rfl rfl rfl id ?_ ?_ ?_ fun _ => id
      · exact due_of_update (c := (s.client.lockReq (.waiter r)).waiterGoto r .querying) rfl rfl
      · intro ρ hρ
        rw [hmain hρ] at hreq
        cases hreq
      · intro ρ hρ
        rw [hmain hρ] at hreq
        cases hreq
  | queried hpc hanswers hpc' =>
      have hreq := hreqWaiter (by rw [hpc]; trivial)
      exact h.received hanswers rfl rfl (by rw [System.taken, withClient, hanswers]; rfl) rfl
        (by rw [due_of_waiter hreq, hpc]; rfl) (due_of_none rfl) (by rintro _ ⟨⟩)
  | lockReq hpc hreq =>
      refine h.waiter rfl rfl rfl rfl ?_
      rw [due_of_none hreq]
      exact due_of_update (c := (s.client.lockReq (.waiter r)).waiterGoto r .locked) rfl rfl
  | unlockQuery hpc =>
      exact h.waiter rfl rfl rfl rfl (due_congr_waiter (r := r) rfl rfl rfl (by rw [hpc]; rfl))
  | wait hpc =>
      have hreq := hreqWaiter (by rw [hpc]; trivial)
      refine h.request ?_ rfl rfl rfl id ?_ ?_ ?_ fun _ => id
      · rw [due_of_waiter hreq, hpc]
        rfl
      · exact due_of_update (c := s.client.waiterGoto r .asking) hreq rfl
      · intro ρ hρ
        rw [hmain hρ] at hreq
        cases hreq
      · intro ρ hρ
        rw [hmain hρ] at hreq
        cases hreq
  | recvStatus hpc hanswers =>
      have hreq := hreqWaiter (by rw [hpc]; trivial)
      exact h.received hanswers rfl rfl (by rw [System.taken, withClient, hanswers]; rfl) rfl
        (by rw [due_of_waiter hreq, hpc]; rfl) (due_of_update hreq rfl) (by rintro _ ⟨⟩)
  | setStatus hpc =>
      exact h.waiter rfl rfl rfl rfl (due_congr_waiter rfl rfl rfl (by rw [hpc]; rfl))
  | recvFromAie hpc hanswers =>
      have hreq := hreqWaiter (by rw [hpc]; trivial)
      exact h.received hanswers rfl rfl (by rw [System.taken, withClient, hanswers]; rfl) rfl
        (by rw [due_of_waiter hreq, hpc]; rfl) (due_of_update hreq rfl) (by rintro _ ⟨⟩)
  | recvPerf hpc hanswers =>
      have hreq := hreqWaiter (by rw [hpc]; trivial)
      exact h.received hanswers rfl rfl (by rw [System.taken, withClient, hanswers]; rfl) rfl
        (by rw [due_of_waiter hreq, hpc]; rfl) (due_of_update hreq rfl) (by rintro _ ⟨⟩)
  | unlockReq hpc =>
      have hreq := hreqWaiter (by rw [hpc]; trivial)
      refine h.waiter rfl rfl rfl rfl ?_
      rw [due_of_waiter hreq, hpc]
      rfl
  | handleOutputs hpc ht' =>
      exact h.waiter rfl rfl rfl rfl (due_congr_waiter rfl rfl rfl (by rw [hpc]; rfl))
  | throws hpc hgone => exact absurd hgone.1 hsession

/-! ### Steps of the server -/

theorem mem_dropLast_cons {α : Type} {x m : α} {rest : List α} (h : x ∈ rest.dropLast) :
    x ∈ (m :: rest).dropLast := by
  cases rest with
  | nil => cases h
  | cons y rest => exact List.mem_cons_of_mem m h

theorem Wire.serve (h : s.Wire) {m : Request} {rest : List Request} {answers : List Answer}
    (hclient : s'.client = s.client) (hsession : s.server.session = .idle)
    (hserver : s.toServer = m :: rest) (hto : s'.toServer = rest)
    (hcl : s'.toClient = s.toClient ++ answers)
    (hkinds : answers.map Answer.kind ++ s'.server.session.kinds = m.kinds)
    (hneeds : ¬ s'.server.session.Needs) (haccepted : .trans_accepted true ∉ answers)
    (hanswered : ∀ a, s'.server.session ≠ .answered a) : s'.Wire := by
  have hfree := h.free (by rw [hsession]; exact id)
  rw [hserver] at hfree
  refine ⟨?_, fun x hx => ?_, fun hn => absurd hn hneeds, fun _ => ⟨?_, fun x hx => ?_⟩,
    fun a n ha => ?_, fun a ha => absurd ha (hanswered a)⟩
  · rw [hclient, ← h.dual, due, due, hto, hcl, hsession, hserver, List.flatMap_cons, ← hkinds,
      List.map_append]
    simp only [SessionPc.kinds, List.append_nil, List.append_assoc]
  · rw [hto] at hx
    refine h.last x ?_
    rw [hserver]
    exact mem_dropLast_cons hx
  · rw [Owes, hclient, hcl, List.mem_append]
    rintro (hmain | hold | hnew)
    · exact hfree.1 (Or.inl hmain)
    · exact hfree.1 (Or.inr hold)
    · exact haccepted hnew
  · rw [hto] at hx
    exact hfree.2 x (List.mem_cons_of_mem m hx)
  · rw [ha] at hneeds
    exact absurd trivial hneeds

theorem Wire.session (h : s.Wire) (hclient : s'.client = s.client) (hto : s'.toServer = s.toServer)
    (hcl : s'.toClient = s.toClient) (hkinds : s'.server.session.kinds = s.server.session.kinds)
    (hneeds : s'.server.session.Needs ↔ s.server.session.Needs)
    (hcreated : ∀ a n, s'.server.session = .created a n → s.toServer ≠ [])
    (hanswered : ∀ a, s'.server.session = .answered a → s.server.session = .answered a) :
    s'.Wire where
  dual := by rw [hclient, ← h.dual, due, due, hto, hcl, hkinds]
  last := by rw [hto]; exact h.last
  needs := by rw [hneeds, hto, Owes, hclient, hcl]; exact h.needs
  free := by rw [hneeds, hto, Owes, hclient, hcl]; exact h.free
  created := by rw [hto]; exact hcreated
  answered := by rw [hclient, hcl]; exact fun a ha => h.answered a (hanswered a ha)

/-- Behind a request with an answer there is nothing. -/
theorem Wire.rest_eq_nil (h : s.Wire) {m : Request} {rest : List Request}
    (hserver : s.toServer = m :: rest) (hm : m.kinds ≠ []) : rest = [] := by
  cases rest with
  | nil => rfl
  | cons m' rest =>
      refine absurd (h.last m ?_) hm
      rw [hserver]
      exact List.mem_cons_self

/-- The results that are about to be sent are those a waiter waits for. -/
theorem Wire.joining (h : s.Wire) {a : Addr} (hsession : s.server.session = .joining a) :
    ∃ r, s.client.req_mtx = some (.waiter r) ∧ s.client.pc r = .asking ∧ s.toClient = [] := by
  have hdual := h.dual
  rw [due, hsession] at hdual
  have hlen : 3 ≤ s.client.due.length := by
    rw [← hdual]
    simp only [SessionPc.kinds, List.length_append, List.length_cons, List.length_nil]
    omega
  have hnil : s.client.due.length = 3 → s.toClient = [] := by
    intro h3
    rw [← hdual] at h3
    simp only [SessionPc.kinds, List.length_append, List.length_map, List.length_cons,
      List.length_nil] at h3
    exact List.length_eq_zero_iff.mp (by omega)
  cases hreq : s.client.req_mtx with
  | none =>
      rw [due_of_none hreq] at hlen
      exact absurd hlen (by simp)
  | some owner =>
      cases owner with
      | main =>
          rw [due_of_main hreq] at hlen
          have hle : ∀ main : MainPc, main.due.length ≤ 1 := by
            intro main
            cases main with
            | exchanging q k => cases q <;> simp [MainPc.due, OtherRequest.kinds]
            | _ => simp [MainPc.due]
          exact absurd (Nat.le_trans hlen (hle _)) (by omega)
      | waiter r =>
          rw [due_of_waiter hreq] at hlen hnil
          have hasking : s.client.pc r = .asking := by
            cases hpc : s.client.pc r <;> rw [hpc] at hlen <;> simp [WaiterPc.due] at hlen
          exact ⟨r, rfl, hasking, hnil (by rw [hasking]; rfl)⟩

/-- Who has asked for the results of a transaction. -/
theorem Wire.asking_of_wait (h : s.Wire) {id timeout : UInt32}
    (hmem : .waitForTestHarness id timeout ∈ s.toServer) : ∃ r, s.client.pc r = .asking := by
  have hkinds : ∀ kind ∈ (Request.waitForTestHarness id timeout).kinds, kind ∈ s.client.due := by
    intro kind hkind
    rw [← h.dual, due]
    exact List.mem_append_right _ (List.mem_flatMap.mpr ⟨_, hmem, hkind⟩)
  have hstatus := hkinds .status (by simp [Request.kinds])
  have hfrom := hkinds .from_aie_ptr (by simp [Request.kinds])
  cases hreq : s.client.req_mtx with
  | none =>
      rw [due_of_none hreq] at hstatus
      cases hstatus
  | some owner =>
      cases owner with
      | main =>
          rw [due_of_main hreq] at hstatus
          cases hmain : s.client.main with
          | exchanging q k =>
              rw [hmain] at hstatus
              cases q <;> simp [MainPc.due, OtherRequest.kinds] at hstatus
          | _ =>
              rw [hmain] at hstatus
              simp [MainPc.due] at hstatus
      | waiter r =>
          rw [due_of_waiter hreq] at hstatus hfrom
          refine ⟨r, ?_⟩
          cases hpc : s.client.pc r <;> rw [hpc] at hstatus hfrom <;>
            simp [WaiterPc.due] at hstatus hfrom

theorem Wire.serverMoves (h : s.Wire) (hc : s.client.Inv) (hm : s.server.Inv)
    (hsession' : s'.server.session ≠ .ended) (hmoves : s.ServerMoves s') : s'.Wire := by
  cases hmoves with
  | ended hclient hserver => exact absurd (by rw [hserver]; rfl) hsession'
  | refused hsession hserver hgt =>
      exact h.serve rfl hsession hserver rfl rfl (by rw [hsession]; rfl)
        (by rw [hsession]; exact id) (by simp) (by simp [hsession])
  | @admitted trans_size rest hsession hserver hle =>
      have hfree := h.free (by rw [hsession]; exact id)
      have hnil : rest = [] := h.rest_eq_nil hserver (by simp [Request.kinds])
      subst hnil
      refine ⟨?_, by simp, fun _ => Or.inl ⟨Or.inr (by simp), rfl⟩, fun hn => absurd trivial hn,
        (by rintro _ _ ⟨⟩), (by rintro _ ⟨⟩)⟩
      rw [← h.dual, due, due, hsession, hserver]
      simp [SessionPc.kinds, Request.kinds, Answer.kind]
  | queried hsession hserver ha ht =>
      exact h.serve rfl hsession hserver rfl rfl (by rw [hsession]; rfl)
        (by rw [hsession]; exact id) (by simp) (by simp [hsession])
  | waits hsession hserver ha ht hid =>
      exact h.serve rfl hsession hserver rfl (List.append_nil _).symm rfl id (by simp) (by simp)
  | @other q rest hsession hserver =>
      have hserve : ∀ {answers : List Answer} {s' : System}, s'.client = s.client →
          s'.server = s.server → s'.toServer = rest → s'.toClient = s.toClient ++ answers →
          answers.map Answer.kind = q.kinds → .trans_accepted true ∉ answers → s'.Wire := by
        intro answers s' hclient heq hto hcl hkinds hnot
        refine h.serve hclient hsession hserver hto hcl ?_ (by rw [heq, hsession]; exact id) hnot
          (by simp [heq, hsession])
        rw [heq, hsession, hkinds]
        exact List.append_nil _
      cases q with
      | runAIEGraph g_idx iters => exact hserve rfl rfl rfl rfl rfl (by simp)
      | waitForGraph t => exact hserve rfl rfl rfl rfl rfl (by simp)
      | getTimeOut => exact hserve rfl rfl rfl rfl rfl (by simp)
      | setTimeOut t => exact hserve rfl rfl rfl (List.append_nil _).symm rfl (by simp)
  | created hsession hserver ha hid =>
      exact h.session rfl rfl rfl (by rw [hsession]; rfl)
        (iff_of_true trivial (by rw [hsession]; trivial)) (by simp [hserver]) (by rintro _ ⟨⟩)
  | @received a trans_size umode trans_id timeout q rest t hsession hserver ht hq hsize =>
      obtain ⟨howes, hrest⟩ : ¬ s.Owes ∧ ∀ m ∈ rest, ¬ m.IsTransaction := by
        rcases h.needs (by rw [hsession]; trivial) with ⟨-, hnil⟩ | ⟨hnot, m, rest', heq, -, hrest⟩
        · rw [hserver] at hnil
          cases hnil
        · rw [hserver] at heq
          cases heq
          exact ⟨hnot, hrest⟩
      refine ⟨?_, fun x hx => h.last x ?_, fun hn => absurd hn id, fun _ => ⟨howes, hrest⟩,
        (by rintro _ _ ⟨⟩), (by rintro _ ⟨⟩)⟩
      · rw [← h.dual, due, due, hsession, hserver]
        rfl
      · rw [hserver]
        exact mem_dropLast_cons hx
  | @joined a t hsession hpc ht =>
      obtain ⟨r, hreq, hasking, hnil⟩ := h.joining hsession
      have hfree := h.free (by rw [hsession]; exact id)
      refine ⟨?_, h.last, fun hn => absurd hn id, fun _ => ⟨?_, hfree.2⟩, (by rintro _ _ ⟨⟩),
        fun b hb => ⟨fun ρ hρ => ?_, ?_⟩⟩
      · rw [← h.dual, due, due, hsession]
        simp [MgrServer.answer, SessionPc.kinds, Answer.kind]
      · rw [Owes, List.mem_append]
        rintro (hmain | hold | hnew)
        · exact hfree.1 (Or.inl hmain)
        · exact hfree.1 (Or.inr hold)
        · simp at hnew
      · replace hρ : s.client.main = .sent ρ := hρ
        have hmain := (hc.locks.main (by simp [hρ])).mpr (by rw [hρ]; trivial)
        rw [hreq] at hmain
        cases hmain
      · simp [hnil]
  | retired hsession ht =>
      exact h.session rfl rfl rfl (by rw [hsession]; rfl)
        (iff_of_false id (by rw [hsession]; exact id)) (by rintro _ _ ⟨⟩) (by rintro _ ⟨⟩)
  | thread hsession hstep hl =>
      have heq := (MgrServer.threadMoves_of_step hm hl hstep).frame.session_eq
      refine h.session rfl rfl rfl (by rw [heq]) (by rw [heq]) (fun a n ha => ?_) fun a ha => ?_
      · exact h.created a n (heq.symm.trans ha)
      · exact heq.symm.trans ha

/-! ### All runs -/

theorem MainMoves.server_eq (h : s.MainMoves s') : s'.server = s.server := by
  cases h <;> rfl

theorem WaiterMoves.server_eq {t : Transaction} (h : s.WaiterMoves r t s') :
    s'.server = s.server := by
  cases h <;> rfl

theorem WaiterMoves.main_eq {r : Ref} {t : Transaction} (h : s.WaiterMoves r t s') :
    s'.client.main = s.client.main ∨ s'.client.main = .terminated := by
  cases h with
  | throws => exact Or.inr rfl
  | _ => exact Or.inl rfl

theorem WaiterMoves.pending_eq {r : Ref} {t : Transaction} (h : s.WaiterMoves r t s') :
    s'.client.pending_transactions = s.client.pending_transactions := by
  cases h <;> rfl

theorem over_of_step (hover : s.client.main.Over) {l : SystemLabel}
    (hstep : lts.step l s = some s') : s'.client.main.Over := by
  rcases step_cases hstep with hserver | ⟨-, hmain⟩ | ⟨-, r, t, -, hwaiter⟩
  · rwa [hserver.client_eq]
  · cases hmain with
    | release hmain =>
        simp only [withClient, MgrClient.release, MgrClient.goto]
        split <;> trivial
    | goto hmain hcalm =>
        rcases hmain with hmain | ⟨w, hmain⟩ <;> rw [hmain] at hover <;> exact absurd hover id
    | fails hmain hgone =>
        rcases hmain with ⟨r, n, hmain⟩ | ⟨r, hmain⟩ | ⟨q, k, hmain⟩ <;> rw [hmain] at hover <;>
          exact absurd hover id
    | _ hmain => rw [hmain] at hover; exact absurd hover id
  · rcases hwaiter.main_eq with heq | hterminated
    · rwa [heq]
    · rw [hterminated]
      trivial

theorem lostStep_server (h : s.lostStep = some s') : s'.server = s.server.fail := by
  unfold lostStep at h
  split at h
  iterate 3
    rw [← Option.some.inj h]
  · rw [Option.ite_none_right_eq_some, Option.some.injEq] at h
    rw [← h.2]
  · cases h
  · cases h

theorem server_of_step {l : SystemLabel} (hstep : lts.step l s = some s') :
    s'.server = s.server ∨ (∃ l', MgrServer.lts.step l' s.server = some s'.server)
      ∨ s'.server = s.server.fail := by
  simp only [lts] at hstep
  split at hstep
  · obtain ⟨l, toServer, server, answers, -, hserver, -, hnone, hother⟩ := sessionStep_eq_some hstep
    have heq : s'.server = server := by
      cases hq : s.otherRequest with
      | none => rw [hnone hq]
      | some q =>
          rw [hother q hq]
          split
          · rfl
          · cases q <;> rfl
    exact Or.inr (Or.inl ⟨l, by rw [heq]; exact hserver⟩)
  · exact Or.inr (Or.inr (lostStep_server hstep))
  · rename_i l
    unfold serverStep at hstep
    split at hstep
    iterate 4
      obtain ⟨m', hm', rfl⟩ := Option.map_eq_some_iff.mp hstep
      exact Or.inr (Or.inl ⟨_, hm'⟩)
    cases hstep
  · rw [Option.ite_none_left_eq_some] at hstep
    replace hstep := hstep.2
    split at hstep
    · obtain ⟨t, -, hwaiter⟩ := waiterMoves_of_waiterStep hstep
      exact Or.inl hwaiter.server_eq
    · exact Or.inl (mainMoves_of_mainStep hstep).server_eq

theorem session_ne_of_step {l : SystemLabel} (hstep : lts.step l s = some s')
    (h : s'.server.session ≠ .ended) : s.server.session ≠ .ended := by
  rcases server_of_step hstep with heq | ⟨l', hserver⟩ | heq
  · rwa [← heq]
  · exact session_of_step hserver
  · exact absurd (by rw [heq]; rfl) h

variable {setup : Setup} {graphs : Nat} {monitorInterval : UInt64} {C : SystemLabel → System → Prop}

theorem server_run (hrun : lts.RunIf C (.new setup graphs monitorInterval) s)
    (hsession : s.server.session ≠ .ended) : MgrServer.lts.Run (.new setup) s.server := by
  induction hrun with
  | refl => exact .refl
  | tail l hprev hC hstep ih =>
      have hold := ih (session_ne_of_step hstep hsession)
      rcases server_of_step hstep with heq | ⟨l', hserver⟩ | heq
      · rwa [heq]
      · exact .tail l' hold trivial hserver
      · exact absurd (by rw [heq]; rfl) hsession

theorem server_inv_of_run (hrun : lts.RunIf C (.new setup graphs monitorInterval) s)
    (hsession : s.server.session ≠ .ended) : s.server.Inv :=
  MgrServer.inv_of_not_ended (server_run hrun hsession) hsession

theorem wire_new (setup : Setup) (graphs : Nat) (monitorInterval : UInt64) :
    (new setup graphs monitorInterval).Wire where
  dual := rfl
  last := nofun
  needs hn := absurd hn id
  free _ := ⟨by simp [Owes, new, MgrClient.new], nofun⟩
  created := nofun
  answered := nofun

theorem wire_of_run (hrun : lts.RunIf C (.new setup graphs monitorInterval) s)
    (hsession : s.server.session ≠ .ended) : s.Wire := by
  refine hrun.invariant_of (I := fun s => s.server.session ≠ .ended → s.Wire)
    (J := fun s => s.client.Inv ∧ (s.server.session ≠ .ended → s.server.Inv))
    (fun s hs => ⟨MgrClient.inv_of_run hs, server_inv_of_run hs⟩) ?_
    (fun _ => wire_new setup graphs monitorInterval) hsession
  intro l s s' hJ hI _ hstep hsession'
  have hsession := session_ne_of_step hstep hsession'
  have hwire := hI hsession
  rcases step_cases hstep with hserver | ⟨-, hmain⟩ | ⟨-, r, t, -, hwaiter⟩
  · exact hwire.serverMoves hJ.1 (hJ.2 hsession) hsession' hserver
  · exact hwire.mainMoves hJ.1 hsession hmain
  · exact hwire.waiterMoves hJ.1 hsession hwaiter

end System

end AieTestHarness
