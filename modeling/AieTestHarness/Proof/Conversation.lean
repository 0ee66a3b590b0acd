import AieTestHarness.Conversation
import AieTestHarness.Proof.Sockets
import AieTestHarness.Proof.Wire

/-!
# Requests and answers field by field

Whatever the client sends of a request is what the session loop receives behind its name, and
whatever the server sends is what the thread that holds `req_mtx` receives. What is on its way is on
its way in one direction only, so that the scripts of both sides are dual up to it.
-/

namespace AieTestHarness

open Sockets Chunks Scripts Value

/-! ### Values -/

namespace Sockets.Call

@[simp]
theorem takes_bool (b : Bool) : (Call.pod 1).Takes (bool b) := rfl

@[simp]
theorem takes_uint32 (n : UInt32) : (Call.pod 4).Takes (uint32 n) := length_leBytes 4 n.toNat

@[simp]
theorem takes_uint64 (n : UInt64) : (Call.pod 8).Takes (uint64 n) := length_leBytes 8 n.toNat

@[simp]
theorem takes_byte (n : UInt8) : (Call.pod 1).Takes (.pod [n]) := rfl

@[simp]
theorem takes_chars (v : List UInt8) : (Call.vec 1).Takes (chars v) := by
  refine ⟨rfl, fun b hb => ?_⟩
  obtain ⟨n, -, rfl⟩ := List.mem_map.mp hb
  rfl

@[simp]
theorem takes_words (v : List Nat) : (Call.vec 8).Takes (words v) := by
  refine ⟨rfl, fun b hb => ?_⟩
  obtain ⟨n, -, rfl⟩ := List.mem_map.mp hb
  exact length_leBytes 8 n

@[simp]
theorem takes_str (v : List UInt8) : Call.str.Takes (.str v) := trivial

@[simp]
theorem takes_sendReq (s : String) : Call.str.Takes (sendReq s) := trivial

@[simp]
theorem takes_bools (v : List Bool) : Call.bools.Takes (.bools v) := trivial

@[simp]
theorem takes_strs (v : List (List UInt8)) : Call.strs.Takes (.strs v) := trivial

@[simp]
theorem takes_file (p q : Path) : (Call.file p).Takes (.file q) := trivial

@[simp]
theorem takes_files (v : List Path) : Call.files.Takes (.files v) := trivial

end Sockets.Call

/-- The session loop knows the request, and receives its fields. -/
def Request.Known (m : Request) : Prop :=
  ∃ name fields calls, m.values = .str name :: fields ∧ handler name = some calls
    ∧ List.Forall₂ Call.Takes calls fields

theorem Request.known {m : Request} (hm : ¬ m.IsTransaction) : m.Known := by
  cases m with
  | transaction => exact absurd trivial hm
  | runTestHarness n => exact ⟨_, [uint64 n], [.pod 8], rfl, by decide, by simp⟩
  | queryTransactionStatus id => exact ⟨_, [uint32 id], [.pod 4], rfl, by decide, by simp⟩
  | waitForTestHarness id timeout =>
      exact ⟨_, [uint32 id, uint32 timeout], [.pod 4, .pod 4], rfl, by decide, by simp⟩
  | other q =>
      cases q with
      | runAIEGraph g_idx iters =>
          exact ⟨_, [uint32 g_idx, uint32 iters], [.pod 4, .pod 4], rfl, by decide, by simp⟩
      | waitForGraph timeout => exact ⟨_, [uint32 timeout], [.pod 4], rfl, by decide, by simp⟩
      | getTimeOut => exact ⟨_, [], [], rfl, by decide, by simp⟩
      | setTimeOut t => exact ⟨_, [uint64 t], [.pod 8], rfl, by decide, by simp⟩
  | destroy => exact ⟨_, [], [], rfl, by decide, by simp⟩

theorem Request.Known.takes {m : Request} (h : m.Known) :
    List.Forall₂ Call.Takes (requestCalls m.values) m.values := by
  obtain ⟨name, fields, calls, hvalues, hcalls, htakes⟩ := h
  rw [hvalues, requestCalls, hcalls]
  exact .cons trivial htakes

/-! ### Bytes -/

/-- A value that a program can hold and that names no file. -/
def Sockets.Value.Sized : Value → Prop
  | .pod _ => True
  | .str v => v.length < 2 ^ 57
  | .vec sizeof buffer => 0 < sizeof ∧ buffer.length * sizeof < 2 ^ 57
  | .bools buffer => buffer.length < 2 ^ 60
  | .strs buffer => buffer.length * sizeofString < 2 ^ 57 ∧ ∀ v ∈ buffer, v.length < 2 ^ 57
  | .file _ | .files _ => False

theorem Sockets.Call.Takes.matching {call : Call} {v : Value} (h : call.Takes v) (hv : v.Sized)
    (src d : Disk) : Matching src d v call d := by
  cases v with
  | file p => exact hv.elim
  | files ps => exact hv.elim
  | pod data => cases call <;> first | exact h.elim | (cases h; exact .pod)
  | str v => cases call <;> first | exact h.elim | exact .str hv
  | bools buffer => cases call <;> first | exact h.elim | exact .bools hv
  | strs buffer => cases call <;> first | exact h.elim | exact .strs hv.1 hv.2
  | vec sizeof buffer =>
      cases call with
      | vec sizeof =>
          obtain ⟨rfl, hwidth⟩ := h
          exact .vec hv.1 hwidth hv.2
      | _ => exact h.elim

theorem matched_of_takes {calls : List Call} {vs : List Value}
    (h : List.Forall₂ Call.Takes calls vs)
    (hvs : ∀ v ∈ vs, v.Sized) (src d : Disk) : Matched src d vs calls := by
  induction h with
  | nil => exact .nil
  | cons hfirst _ ih =>
      rw [List.forall_mem_cons] at hvs
      exact .cons (hfirst.matching hvs.1 src d) (ih hvs.2)

theorem Request.sized {m : Request} (hm : ¬ m.IsTransaction) : ∀ v ∈ m.values, v.Sized := by
  have hvalues : ∀ (s : String) (fields : List Value), s.length < 2 ^ 57 →
      (∀ v ∈ fields, v.Sized) → ∀ v ∈ sendReq s :: fields, v.Sized := by
    intro s fields hs hfields
    refine List.forall_mem_cons.mpr ⟨?_, hfields⟩
    rwa [sendReq, Value.Sized, name, List.length_map, String.length_toList]
  have huint32 : ∀ n, (uint32 n).Sized := fun _ => trivial
  have huint64 : ∀ n, (uint64 n).Sized := fun _ => trivial
  cases m with
  | transaction => exact absurd trivial hm
  | runTestHarness n => exact hvalues _ [uint64 n] (by decide) (by simp [huint64])
  | queryTransactionStatus id => exact hvalues _ [uint32 id] (by decide) (by simp [huint32])
  | waitForTestHarness id timeout =>
      exact hvalues _ [uint32 id, uint32 timeout] (by decide) (by simp [huint32])
  | other q =>
      cases q with
      | runAIEGraph g_idx iters =>
          exact hvalues _ [uint32 g_idx, uint32 iters] (by decide) (by simp [huint32])
      | waitForGraph timeout => exact hvalues _ [uint32 timeout] (by decide) (by simp [huint32])
      | getTimeOut => exact hvalues _ [] (by decide) (by simp)
      | setTimeOut t => exact hvalues _ [uint64 t] (by decide) (by simp [huint64])
  | destroy => exact hvalues _ [] (by decide) (by simp)

/-- Whatever the chunks its bytes come in, a request is received as it is. -/
theorem Request.received {m : Request} (hm : ¬ m.IsTransaction) (src d : Disk) (e : Fault)
    {cs : List (List UInt8)} {tail : List UInt8} (hcs : Proper cs)
    (hflat : cs.flatten = m.values.flatMap (wire src) ++ tail) :
    ∃ received d' cs', recvAll e (requestCalls m.values) (d, cs) = (received, .ok (d', cs'))
      ∧ Proper cs' ∧ cs'.flatten = tail ∧ List.Forall₂ (Delivered src) m.values received :=
  (matched_of_takes (Request.known hm).takes (Request.sized hm) src d).complete e hcs hflat

namespace System

variable {s s' : System} {r : Ref} {l : SystemLabel}

/-! ### What is on its way -/

/-- The values on their way to the server. Of a transaction that is created the head is received. -/
def incoming (s : System) : List Value :=
  match s.server.session, s.toServer with
  | .created _ _, m :: rest => m.values.drop 3 ++ rest.flatMap Request.values
  | _, ms => ms.flatMap Request.values

def outgoing (s : System) : List Value := s.toClient.map Answer.value

theorem incoming_of_ne (h : ∀ a n, s.server.session ≠ .created a n) :
    s.incoming = s.toServer.flatMap Request.values := by
  unfold incoming
  split
  · rename_i hsession _
    exact absurd hsession (h _ _)
  · rfl

theorem incoming_of_created {a : Addr} {n : UInt64} {m : Request} {rest : List Request}
    (hsession : s.server.session = .created a n) (hto : s.toServer = m :: rest) :
    s.incoming = m.values.drop 3 ++ rest.flatMap Request.values := by
  rw [incoming, hsession, hto]

theorem incoming_eq_nil (h : s.toServer = []) : s.incoming = [] := by
  unfold incoming
  split
  · rename_i hto
    rw [h] at hto
    cases hto
  · rw [h]
    rfl

theorem incoming_congr (hserver : s'.server = s.server) (hto : s'.toServer = s.toServer) :
    s'.incoming = s.incoming := by
  rw [incoming, incoming, hserver, hto]

/-- Requests and answers are never on their way at the same time, and `destroy` is the last
request. -/
structure Duplex (s : System) : Prop where
  oneWay : s.toServer ≠ [] → s.toClient = [] ∧ s.server.session.kinds = []
  destroy : .destroy ∈ s.toServer → s.client.main.Over
  last : .destroy ∉ s.toServer.dropLast

/-! ### What the client says -/

inductive ClientTalk (s s' : System) : Prop where
  | quiet (hto : s'.toServer = s.toServer) (hcl : s'.toClient = s.toClient)
  | sends {m : Request} (hto : s'.toServer = s.toServer ++ [m]) (hcl : s'.toClient = s.toClient)
      (hdue : s.client.due = []) (hover : ¬ s.client.main.Over)
      (hdestroy : m = .destroy → s'.client.main.Over)
  | takes {answer : Answer} {answers : List Answer} {call : Call}
      (hto : s'.toServer = s.toServer) (hcl : s.toClient = answer :: answers)
      (hcl' : s'.toClient = answers) (hcall : s.client.call = some call)
      (htakes : call.Takes answer.value)

theorem call_of_main {c : MgrClient} (h : c.req_mtx = some .main) : c.call = c.main.call := by
  rw [MgrClient.call, h]

theorem call_of_waiter {c : MgrClient} (h : c.req_mtx = some (.waiter r)) :
    c.call = (c.pc r).call := by
  rw [MgrClient.call, h]

theorem MainMoves.talk (hmoves : s.MainMoves s') (hc : s.client.Inv) : s.ClientTalk s' := by
  have hreq : s.client.main.Holds → s.client.req_mtx = some .main := fun hm =>
    (hc.locks.main (by rintro heq; rw [heq] at hm; exact hm)).mpr hm
  cases hmoves with
  | ask hmain hnone =>
      exact .sends rfl rfl (due_of_none hnone) (by rw [hmain]; exact id) Request.noConfusion
  | @send r t hmain ht =>
      refine .sends rfl rfl ?_ (by rw [hmain]; exact id) Request.noConfusion
      rw [due_of_main (hreq (by rw [hmain]; trivial)), hmain]
      rfl
  | request hmain hnone =>
      exact .sends rfl rfl (due_of_none hnone) (by rw [hmain]; exact id) Request.noConfusion
  | destroy hmain hnone =>
      exact .sends rfl rfl (due_of_none hnone) (by rw [hmain]; exact id) fun _ => trivial
  | @answered r memorySize b answers hmain hanswers =>
      refine .takes rfl hanswers ?_ ?_ (Call.takes_bool b)
      · rw [System.taken, withClient, hanswers]
        rfl
      · rw [call_of_main (hreq (by rw [hmain]; trivial)), hmain]
        rfl
  | @exchanged q k answer answers main v hmain hanswers hq hcalm =>
      have hcall : s.client.call = q.call := by
        rw [call_of_main (hreq (by rw [hmain]; trivial)), hmain]
        rfl
      have htail :
        (s.withClient ({ s.client.unlockReq with graph_started := v }.goto main)).taken.toClient
          = answers := by
        rw [System.taken, withClient, hanswers]
        rfl
      rcases hq with ⟨rfl, t, rfl⟩ | ⟨⟨g_idx, iters, rfl⟩ | ⟨t, rfl⟩, v, rfl⟩
      · exact .takes rfl hanswers htail hcall (Call.takes_uint64 t)
      · exact .takes rfl hanswers htail hcall trivial
      · exact .takes rfl hanswers htail hcall trivial
  | _ => exact .quiet rfl rfl

/-- A waiter that holds `req_mtx` runs before the destructor. -/
theorem not_over_of_waiter (hc : s.client.Inv) (hmain : s.client.main ≠ .terminated)
    (hreq : s.client.req_mtx ≠ some .main) : ¬ s.client.main.Over := by
  intro hover
  refine hreq ((hc.locks.main hmain).mpr ?_)
  cases hpc : s.client.main with
  | deleted => trivial
  | destroyed => trivial
  | terminated => exact absurd hpc hmain
  | _ =>
      rw [hpc] at hover
      exact hover.elim

theorem WaiterMoves.talk {t : Transaction} (hmoves : s.WaiterMoves r t s') (hc : s.client.Inv)
    (hmain : s.client.main ≠ .terminated) : s.ClientTalk s' := by
  have hreq : (s.client.pc r).Holds → s.client.req_mtx = some (.waiter r) := fun hr =>
    (hc.locks.waiter r).mpr hr
  have htakes : ∀ {answer : Answer} {answers : List Answer} {call : Call},
      s'.toServer = s.toServer → s.toClient = answer :: answers → s'.toClient = s.toClient.tail →
      (s.client.pc r).Holds → (s.client.pc r).call = some call → call.Takes answer.value →
      s.ClientTalk s' := by
    intro answer answers call hto hcl hcl' hholds hcall htakes
    refine .takes hto hcl (by rw [hcl', hcl]; rfl) ?_ htakes
    rw [call_of_waiter (hreq hholds), hcall]
  cases hmoves with
  | query hpc hnone =>
      exact .sends rfl rfl (due_of_none hnone) (not_over_of_waiter hc hmain (by rw [hnone]; nofun))
        Request.noConfusion
  | wait hpc =>
      have hmine := hreq (by rw [hpc]; trivial)
      refine .sends rfl rfl ?_ (not_over_of_waiter hc hmain (by rw [hmine]; nofun))
        Request.noConfusion
      rw [due_of_waiter hmine, hpc]
      rfl
  | queried hpc hanswers =>
      exact htakes rfl hanswers rfl (by rw [hpc]; trivial) (by rw [hpc]; rfl) (Call.takes_byte _)
  | recvStatus hpc hanswers =>
      exact htakes rfl hanswers rfl (by rw [hpc]; trivial) (by rw [hpc]; rfl) (Call.takes_byte _)
  | recvFromAie hpc hanswers =>
      exact htakes rfl hanswers rfl (by rw [hpc]; trivial) (by rw [hpc]; rfl) (Call.takes_chars _)
  | recvPerf hpc hanswers =>
      exact htakes rfl hanswers rfl (by rw [hpc]; trivial) (by rw [hpc]; rfl) (Call.takes_words _)
  | _ => exact .quiet rfl rfl

theorem Duplex.client (h : s.Duplex) (hwire : s.Wire) (hserver : s'.server = s.server)
    (hover : s.client.main.Over → s'.client.main.Over) (htalk : s.ClientTalk s') : s'.Duplex := by
  cases htalk with
  | quiet hto hcl =>
      refine ⟨?_, fun hmem => hover (h.destroy ?_), ?_⟩
      · rw [hto, hcl, hserver]
        exact h.oneWay
      · rwa [hto] at hmem
      · rw [hto]
        exact h.last
  | @sends m hto hcl hdue hnot hdestroy =>
      obtain ⟨hempty, hkinds, -⟩ := hwire.silent hdue
      refine ⟨fun _ => ⟨by rw [hcl, hempty], by rw [hserver, hkinds]⟩, fun hmem => ?_, ?_⟩
      · rw [hto, List.mem_append, List.mem_singleton] at hmem
        rcases hmem with hold | hnew
        · exact absurd (h.destroy hold) hnot
        · exact hdestroy hnew.symm
      · rw [hto, List.dropLast_concat]
        exact fun hmem => hnot (h.destroy hmem)
  | @takes answer answers call hto hcl hcl' hcall htakes =>
      have hnil : s.toServer = [] := by
        by_contra hne
        rw [(h.oneWay hne).1] at hcl
        cases hcl
      refine ⟨fun hne => absurd (hto.trans hnil) hne, fun hmem => ?_, ?_⟩
      · rw [hto, hnil] at hmem
        cases hmem
      · rw [hto, hnil]
        exact List.not_mem_nil

/-! ### What the server says -/

theorem sessionCalls_of_same (hsession : s'.server.session = s.server.session)
    (hto : s.toServer.length ≤ s'.toServer.length) : sessionCalls s s' = [] := by
  have hnot : ¬ s'.toServer.length < s.toServer.length := Nat.not_lt.mpr hto
  rw [sessionCalls]
  cases hs : s.server.session with
  | idle =>
      cases hreq : s.toServer with
      | nil => rfl
      | cons m rest =>
          rw [hreq] at hnot
          exact if_neg hnot
  | admitted n =>
      rw [hs] at hsession
      exact if_pos hsession
  | created a n => exact if_neg hnot
  | _ => rfl

structure ServerTalk (s s' : System) (vs : List Value) (answers : List Answer) : Prop where
  incoming_eq : s.incoming = vs ++ s'.incoming
  takes : List.Forall₂ Call.Takes (sessionCalls s s') vs
  toClient_eq : s'.toClient = s.toClient ++ answers
  free : vs ≠ [] → s.toClient = []
  suffix : s'.toServer <:+ s.toServer

theorem ServerTalk.serve (hwire : s.Wire) (hd : s.Duplex) {m : Request} {rest : List Request}
    {answers : List Answer} (hsession : s.server.session = .idle) (hserver : s.toServer = m :: rest)
    (hto : s'.toServer = rest) (hcl : s'.toClient = s.toClient ++ answers)
    (hsession' : ∀ a n, s'.server.session ≠ .created a n) : s.ServerTalk s' m.values answers where
  incoming_eq := by
    rw [incoming_of_ne (by rw [hsession]; nofun), incoming_of_ne hsession', hserver, hto,
      List.flatMap_cons]
  takes := by
    have hm : ¬ m.IsTransaction := (hwire.free (by rw [hsession]; exact id)).2 m (by simp [hserver])
    have hcalls : sessionCalls s s' = requestCalls m.values := by
      simp [sessionCalls, hsession, hserver, hto]
    rw [hcalls]
    exact (Request.known hm).takes
  toClient_eq := hcl
  free _ := (hd.oneWay (by rw [hserver]; exact List.cons_ne_nil m rest)).1
  suffix := by
    rw [hserver, hto]
    exact List.suffix_cons m rest

theorem ServerTalk.quiet {answers : List Answer} (hincoming : s.incoming = s'.incoming)
    (hto : s'.toServer = s.toServer) (hcl : s'.toClient = s.toClient ++ answers)
    (hcalls : sessionCalls s s' = []) : s.ServerTalk s' [] answers where
  incoming_eq := hincoming
  takes := by rw [hcalls]; exact .nil
  toClient_eq := hcl
  free h := absurd rfl h
  suffix := hto ▸ List.suffix_refl _

theorem ServerMoves.talk (hmoves : s.ServerMoves s') (hwire : s.Wire) (hd : s.Duplex)
    (hm : s.server.Inv) (hsession' : s'.server.session ≠ .ended) :
    ∃ vs answers, s.ServerTalk s' vs answers := by
  cases hmoves with
  | ended _ hserver => exact absurd (by rw [hserver]; rfl) hsession'
  | refused hsession hserver =>
      exact ⟨_, _, .serve hwire hd hsession hserver rfl rfl (by rw [hsession]; nofun)⟩
  | admitted hsession hserver => exact ⟨_, _, .serve hwire hd hsession hserver rfl rfl nofun⟩
  | queried hsession hserver =>
      exact ⟨_, _, .serve hwire hd hsession hserver rfl rfl (by rw [hsession]; nofun)⟩
  | waits hsession hserver =>
      exact ⟨_, [], .serve hwire hd hsession hserver rfl (List.append_nil _).symm nofun⟩
  | @other q rest hsession hserver =>
      cases q with
      | setTimeOut t =>
          exact ⟨_, [], .serve hwire hd hsession hserver rfl (List.append_nil _).symm
            (by simp [serveOther, hsession])⟩
      | _ =>
          exact ⟨_, _, .serve hwire hd hsession hserver rfl rfl (by simp [serveOther, hsession])⟩
  | @created a trans_size umode trans_id timeout q rest mode hsession hserver ha hid =>
      refine ⟨[.pod [umode], uint32 trans_id, uint32 timeout], [], ?_, ?_, (List.append_nil _).symm,
        fun _ => (hd.oneWay (by simp [hserver])).1, List.suffix_refl _⟩
      · simp [incoming, hsession, hserver, MgrServer.accept, Request.values]
      · simp [sessionCalls, hsession, MgrServer.accept]
  | @received a trans_size umode trans_id timeout q rest t hsession hserver ht hq hsize =>
      refine ⟨[words q.cfg_ptr, chars q.to_aie_ptr, uint64 q.from_aie_size], [], ?_, ?_,
        (List.append_nil _).symm, fun _ => (hd.oneWay (by simp [hserver])).1, ?_⟩
      · simp [incoming, hsession, hserver, MgrServer.spawn, Request.values]
      · simp [sessionCalls, hsession, hserver]
      · rw [hserver]
        exact List.suffix_cons _ rest
  | joined hsession hpc ht =>
      refine ⟨[], _, .quiet ?_ rfl rfl (by rw [sessionCalls, hsession])⟩
      simp [incoming, hsession, MgrServer.answer]
  | retired hsession ht =>
      refine ⟨[], [], .quiet ?_ rfl (List.append_nil _).symm (by rw [sessionCalls, hsession])⟩
      simp [incoming, hsession, MgrServer.retire]
  | @thread l m' hsession hstep hl =>
      have heq := (MgrServer.threadMoves_of_step hm hl hstep).frame.session_eq
      refine ⟨[], [], .quiet ?_ rfl (List.append_nil _).symm ?_⟩
      · simp only [incoming, heq]
      · exact sessionCalls_of_same heq (Nat.le_refl _)

theorem Duplex.server (h : s.Duplex) (hclient : s'.client = s.client)
    (hto : s'.toServer <:+ s.toServer)
    (hone : s'.toServer ≠ [] → s'.toClient = [] ∧ s'.server.session.kinds = []) : s'.Duplex where
  oneWay := hone
  destroy hmem := by
    rw [hclient]
    exact h.destroy (hto.subset hmem)
  last hmem := by
    obtain ⟨served, hserved⟩ := hto
    have hne : s'.toServer ≠ [] := by
      intro hnil
      rw [hnil] at hmem
      cases hmem
    refine h.last ?_
    rw [← hserved, List.dropLast_append_of_ne_nil hne]
    exact List.mem_append_right served hmem

theorem Duplex.serverMoves (h : s.Duplex) (hwire : s.Wire) (hm : s.server.Inv)
    (hsession' : s'.server.session ≠ .ended) (hmoves : s.ServerMoves s') : s'.Duplex := by
  obtain ⟨vs, answers, htalk⟩ := hmoves.talk hwire h hm hsession'
  refine h.server hmoves.client_eq htalk.suffix ?_
  -- behind a request that has an answer there is nothing
  have hserve : ∀ {m : Request} {rest : List Request}, s.toServer = m :: rest → m.kinds ≠ [] →
      s'.toServer = rest → s'.toServer ≠ [] → s'.toClient = [] ∧ s'.server.session.kinds = [] := by
    intro m rest hserver hkinds hto hne
    exact absurd (hto.trans (hwire.rest_eq_nil hserver hkinds)) hne
  have hold : ∀ {m : Request} {rest : List Request}, s.toServer = m :: rest →
      s.toClient = [] := fun hserver => (h.oneWay (by rw [hserver]; exact List.cons_ne_nil _ _)).1
  cases hmoves with
  | ended _ hserver => exact absurd (by rw [hserver]; rfl) hsession'
  | refused hsession hserver => exact hserve hserver (List.cons_ne_nil _ _) rfl
  | admitted hsession hserver => exact hserve hserver (List.cons_ne_nil _ _) rfl
  | queried hsession hserver => exact hserve hserver (List.cons_ne_nil _ _) rfl
  | waits hsession hserver => exact hserve hserver (List.cons_ne_nil _ _) rfl
  | @other q rest hsession hserver =>
      cases q with
      | setTimeOut t =>
          exact fun _ => ⟨hold hserver, by simp [serveOther, hsession, SessionPc.kinds]⟩
      | _ => exact hserve hserver (List.cons_ne_nil _ _) rfl
  | created hsession hserver => exact fun _ => ⟨hold hserver, rfl⟩
  | received hsession hserver => exact fun _ => ⟨hold hserver, rfl⟩
  | joined hsession =>
      intro hne
      have hkinds := (h.oneWay hne).2
      rw [hsession] at hkinds
      cases hkinds
  | retired hsession => exact fun hne => ⟨(h.oneWay hne).1, rfl⟩
  | @thread l m' hsession hstep hl =>
      have heq := (MgrServer.threadMoves_of_step hm hl hstep).frame.session_eq
      intro hne
      rw [heq]
      exact h.oneWay hne

theorem Duplex.step (h : s.Duplex) (hwire : s.Wire) (hc : s.client.Inv) (hm : s.server.Inv)
    (hstep : lts.step l s = some s') (hsession' : s'.server.session ≠ .ended) : s'.Duplex := by
  have hover : s.client.main.Over → s'.client.main.Over := fun hover => over_of_step hover hstep
  rcases step_cases hstep with hserver | ⟨-, hmain⟩ | ⟨hne, r, t, -, hwaiter⟩
  · exact h.serverMoves hwire hm hsession' hserver
  · exact h.client hwire hmain.server_eq hover (hmain.talk hc)
  · exact h.client hwire hwaiter.server_eq hover (hwaiter.talk hc hne)

/-! ### The scripts -/

theorem clientOps_of_server (hto : s'.toServer.length ≤ s.toServer.length)
    (hcl : s.toClient.length ≤ s'.toClient.length) : s.clientOps s' = [] := by
  rw [clientOps, List.drop_of_length_le hto, if_neg (Nat.not_lt.mpr hcl)]
  rfl

theorem serverOps_of_client (hserver : s'.server = s.server)
    (hto : s.toServer.length ≤ s'.toServer.length) (hcl : s'.toClient.length ≤ s.toClient.length) :
    s.serverOps s' = [] := by
  rw [serverOps, sessionCalls_of_same (by rw [hserver]) hto, List.drop_of_length_le hcl]
  rfl

theorem incoming_append {m : Request} (hwire : s.Wire) (hserver : s'.server = s.server)
    (hto : s'.toServer = s.toServer ++ [m]) : s'.incoming = s.incoming ++ m.values := by
  by_cases hcreated : ∃ a n, s.server.session = .created a n
  · obtain ⟨a, n, hsession⟩ := hcreated
    obtain ⟨m₀, rest, hne⟩ := List.exists_cons_of_ne_nil (hwire.created a n hsession)
    rw [incoming_of_created hsession hne,
      incoming_of_created (hserver ▸ hsession) (by rw [hto, hne]; rfl)]
    simp
  · have hne : ∀ a n, s.server.session ≠ .created a n := fun a n h => hcreated ⟨a, n, h⟩
    rw [incoming_of_ne hne, incoming_of_ne (by rw [hserver]; exact hne), hto]
    simp

def Scripted (s : System) (l₁ l₂ : List Operation) : Prop :=
  Agree Call.Takes l₁ l₂ s.incoming s.outgoing

theorem ClientTalk.agree (htalk : s.ClientTalk s') (hwire : s.Wire) (hd : s.Duplex)
    (hserver : s'.server = s.server) {l₁ l₂ : List Operation} (h : s.Scripted l₁ l₂) :
    s'.Scripted (l₁ ++ s.clientOps s') (l₂ ++ s.serverOps s') := by
  have hops : s.toServer.length ≤ s'.toServer.length → s'.toClient.length ≤ s.toClient.length →
      l₂ ++ s.serverOps s' = l₂ := by
    intro hto hcl
    rw [serverOps_of_client hserver hto hcl, List.append_nil]
  cases htalk with
  | quiet hto hcl =>
      rw [hops (by rw [hto]) (by rw [hcl]), clientOps_of_server (by rw [hto]) (by rw [hcl]),
        List.append_nil, Scripted, incoming_congr hserver hto, outgoing, hcl]
      exact h
  | @sends m hto hcl =>
      have hclient : s.clientOps s' = m.values.map .send := by
        simp [clientOps, hto, hcl]
      rw [hops (by simp [hto]) (by rw [hcl]), hclient, Scripted, incoming_append hwire hserver hto,
        outgoing, hcl]
      exact h.send m.values
  | @takes answer answers call hto hcl hcl' hcall htakes =>
      have hnil : s.toServer = [] := by
        by_contra hne
        rw [(hd.oneWay hne).1] at hcl
        cases hcl
      have hclient : s.clientOps s' = [.recv call] := by
        simp [clientOps, hto, hcl, hcl', hcall]
      rw [hops (by rw [hto]) (by simp [hcl, hcl']), hclient, Scripted, incoming_congr hserver hto,
        incoming_eq_nil hnil, outgoing, hcl']
      rw [Scripted, incoming_eq_nil hnil, outgoing, hcl] at h
      have htakes : List.Forall₂ Call.Takes [call] [answer.value] := .cons htakes .nil
      exact (h.symm.recv htakes).symm

theorem ServerTalk.agree {vs : List Value} {answers : List Answer}
    (htalk : s.ServerTalk s' vs answers) {l₁ l₂ : List Operation} (h : s.Scripted l₁ l₂) :
    s'.Scripted (l₁ ++ s.clientOps s') (l₂ ++ s.serverOps s') := by
  have hclient : s.clientOps s' = [] := by
    refine clientOps_of_server htalk.suffix.length_le ?_
    rw [htalk.toClient_eq, List.length_append]
    exact Nat.le_add_right ..
  have hserver : s.serverOps s' = (sessionCalls s s').map .recv
    ++ (answers.map Answer.value).map .send := by
    rw [serverOps, htalk.toClient_eq, List.drop_left]
  have hrecv : Agree Call.Takes l₁ (l₂ ++ (sessionCalls s s').map .recv) s'.incoming
    s.outgoing := by
    rw [Scripted, htalk.incoming_eq] at h
    by_cases hvs : vs = []
    · have htakes := htalk.takes
      rw [hvs] at htakes h
      rw [List.forall₂_nil_right_iff.mp htakes]
      rwa [List.map_nil, List.append_nil]
    · have hnil : s.outgoing = [] := by rw [outgoing, htalk.free hvs]; rfl
      rw [hnil] at h ⊢
      exact h.recv htalk.takes
  rw [hclient, hserver, List.append_nil, ← List.append_assoc, Scripted, outgoing, htalk.toClient_eq,
    List.map_append]
  exact (hrecv.symm.send (answers.map Answer.value)).symm

theorem Scripted.step {l₁ l₂ : List Operation} (h : s.Scripted l₁ l₂) (hwire : s.Wire)
    (hd : s.Duplex) (hc : s.client.Inv) (hm : s.server.Inv) (hstep : lts.step l s = some s')
    (hsession' : s'.server.session ≠ .ended) :
    s'.Scripted (l₁ ++ s.clientOps s') (l₂ ++ s.serverOps s') := by
  rcases step_cases hstep with hserver | ⟨-, hmain⟩ | ⟨hne, r, t, -, hwaiter⟩
  · obtain ⟨vs, answers, htalk⟩ := hserver.talk hwire hd hm hsession'
    exact htalk.agree h
  · exact (hmain.talk hc).agree hwire hd hmain.server_eq h
  · exact (hwaiter.talk hc hne).agree hwire hd hwaiter.server_eq h

/-! ### The end of a session -/

theorem destroys_eq_true (h : s.destroys s' = true) : s.server.session = .idle
    ∧ ∃ rest, s.toServer = .destroy :: rest ∧ s'.toServer.length < s.toServer.length := by
  unfold destroys at h
  split at h
  · rename_i rest hsession hserver
    exact ⟨hsession, rest, hserver, of_decide_eq_true h⟩
  · cases h

theorem ClientTalk.length_le (h : s.ClientTalk s') : s.toServer.length ≤ s'.toServer.length := by
  cases h with
  | quiet hto => rw [hto]
  | sends hto =>
      rw [hto, List.length_append]
      exact Nat.le_add_right ..
  | takes hto => rw [hto]

theorem destroy_of_step (hd : s.Duplex) (hc : s.client.Inv) (hstep : lts.step l s = some s')
    (h : s.destroys s' = true) :
    s.server.session = .idle ∧ s.toServer = [.destroy] ∧ s.toClient = []
      ∧ s' = { s with server := s.server.fail, toServer := [] } := by
  obtain ⟨hsession, rest, hserver, hlt⟩ := destroys_eq_true h
  have hnil : rest = [] := by
    by_contra hne
    refine hd.last ?_
    rw [hserver, List.dropLast_cons_of_ne_nil hne]
    exact List.mem_cons_self
  subst hnil
  have hempty := (hd.oneWay (by rw [hserver]; exact List.cons_ne_nil _ _)).1
  have htalk : ¬ s.ClientTalk s' := fun htalk => Nat.not_lt.mpr htalk.length_le hlt
  refine ⟨hsession, hserver, hempty, ?_⟩
  simp only [lts] at hstep
  split at hstep
  · simp only [sessionStep, sessionLabel, hsession, hserver, MgrServer.lts, MgrServer.sessionStep,
      replies, otherRequest, hempty, reduceCtorEq, if_false, if_true, Option.bind_eq_bind,
      Option.bind_some, List.append_nil, Option.some.injEq] at hstep
    rw [← hstep, ← hempty]
  · rw [lostStep, hsession] at hstep
    rw [← Option.some.inj hstep] at hlt
    exact absurd hlt (Nat.lt_irrefl _)
  · rename_i l
    obtain ⟨m', hm', rfl⟩ : ∃ m', MgrServer.lts.step l s.server = some m'
        ∧ { s with server := m' } = s' := by
      unfold serverStep at hstep
      split at hstep
      iterate 4 exact Option.map_eq_some_iff.mp hstep
      cases hstep
    exact absurd hlt (Nat.lt_irrefl _)
  · rw [Option.ite_none_left_eq_some] at hstep
    obtain ⟨hne, hstep⟩ := hstep
    split at hstep
    · obtain ⟨t, -, hwaiter⟩ := waiterMoves_of_waiterStep hstep
      exact absurd (hwaiter.talk hc hne) htalk
    · exact absurd ((mainMoves_of_mainStep hstep).talk hc) htalk

theorem Scripted.destroy {l₁ l₂ : List Operation} (h : s.Scripted l₁ l₂) (hd : s.Duplex)
    (hc : s.client.Inv) (hstep : lts.step l s = some s') (hdestroys : s.destroys s' = true) :
    Agree Call.Takes (l₁ ++ s.clientOps s') (l₂ ++ s.serverOps s') [] [] := by
  obtain ⟨hsession, hserver, hempty, rfl⟩ := destroy_of_step hd hc hstep hdestroys
  have hincoming : s.incoming = [sendReq "destroy"] := by
    rw [incoming_of_ne (by rw [hsession]; nofun), hserver]
    rfl
  have hops : s.serverOps { s with server := s.server.fail, toServer := [] }
      = (requestCalls [sendReq "destroy"]).map .recv := by
    simp [serverOps, sessionCalls, hsession, hserver, Request.values]
  have hclient : s.clientOps { s with server := s.server.fail, toServer := [] } = [] :=
    clientOps_of_server (Nat.zero_le _) (Nat.le_refl _)
  rw [hclient, List.append_nil, hops]
  rw [Scripted, hincoming, outgoing, hempty] at h
  have htakes : Request.Known .destroy := Request.known id
  exact h.recv htakes.takes

/-! ### All runs -/

variable {setup : Setup} {graphs : Nat} {monitorInterval : UInt64} {C : SystemLabel → System → Prop}

theorem duplex_of_run (hrun : lts.RunIf C (.new setup graphs monitorInterval) s)
    (hsession : s.server.session ≠ .ended) : s.Duplex := by
  refine hrun.invariant_of (I := fun s => s.server.session ≠ .ended → s.Duplex)
    (J := fun s => s.client.Inv ∧ (s.server.session ≠ .ended → s.server.Inv ∧ s.Wire))
    (fun s hs => ⟨MgrClient.inv_of_run hs, fun h => ⟨server_inv_of_run hs h, wire_of_run hs h⟩⟩) ?_
    (fun _ => ⟨fun hne => absurd rfl hne, nofun, nofun⟩) hsession
  intro l s s' hJ hI _ hstep hsession'
  have hsession := session_ne_of_step hstep hsession'
  exact (hI hsession).step (hJ.2 hsession).2 hJ.1 (hJ.2 hsession).1 hstep hsession'

end System

end AieTestHarness
