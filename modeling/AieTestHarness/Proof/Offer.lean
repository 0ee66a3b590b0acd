import AieTestHarness.Proof.Wire

/-!
# What is sent of a transaction

The server is told the size of a transaction before it gets it. From the transaction's creation
until it is received the two agree: the request, the buffers behind it and the new transaction of
the client have the same sizes.
-/

namespace AieTestHarness

/-- An id and the sizes of four buffers. -/
abbrev Key := Nat × Nat × Nat × Nat × Nat

def keyUsage : Key → Nat
  | (_, cfg, perf, to_aie, from_aie) => u64 (cfg * 8 + perf * 8 + to_aie + from_aie)

theorem keyUsage_key (t : Transaction) : keyUsage t.key = t.getMemoryUsage := rfl

/-- The transaction a request carries; the receiver allocates `perf` words for the counters. -/
def Request.keys (perf : Nat) : Request → List Key
  | .transaction _ trans_id _ q =>
    [(trans_id.toNat, q.cfg_ptr.length, perf, q.to_aie_ptr.length, q.from_aie_size.toNat)]
  | _ => []

theorem keys_eq_nil {m : Request} (perf : Nat) (h : ¬ m.IsTransaction) : m.keys perf = [] := by
  cases m <;> first | rfl | exact absurd trivial h

/-- The transaction whose size the server has been asked about. -/
def MainPc.offered : MainPc → Option Ref
  | .asking r _ | .accepted r => some r
  | _ => none

theorem MainPc.fresh_of_offered {main : MainPc} {r : Ref} (h : main.offered = some r) :
    main.fresh = some r := by
  cases main with
  | asking | accepted => exact h
  | _ => cases h

def SessionPc.told : SessionPc → Option UInt64
  | .admitted n | .created _ n => some n
  | _ => none

namespace MgrClient

/-- The transactions that are sent and not pending yet. -/
def hand (c : MgrClient) : List Ref :=
  match c.main with
  | .sent r => [r]
  | _ => []

def key (c : MgrClient) (r : Ref) : Key := ((c.heap r).map Transaction.key).getD (0, 0, 0, 0, 0)

theorem key_of_some {c : MgrClient} {r : Ref} {t : Transaction} (ht : c.heap r = some t) :
    c.key r = t.key := by
  rw [key, ht]
  rfl

theorem usage_eq (c : MgrClient) (r : Ref) : c.usage r = keyUsage (c.key r) := by
  unfold usage key
  cases c.heap r <;> rfl

theorem usage_of_some {c : MgrClient} {r : Ref} {t : Transaction} (ht : c.heap r = some t) :
    c.usage r = t.getMemoryUsage := by
  rw [usage_eq, key_of_some ht, keyUsage_key]

theorem key_congr {c c' : MgrClient} {r : Ref} (h : c'.heap r = c.heap r) : c'.key r = c.key r := by
  rw [key, key, h]

theorem usage_congr {c c' : MgrClient} {r : Ref} (h : c'.heap r = c.heap r) :
    c'.usage r = c.usage r := by
  rw [usage, usage, h]

theorem usage_lt (c : MgrClient) (r : Ref) : c.usage r < 2 ^ 64 := by
  rw [usage_eq]
  exact u64_lt _

theorem Made.payload_keys {r : Ref} {setup : Setup} {t : Transaction} (h : Made r setup t) :
    (payload t).keys (u32 (setup.num_channels * 4)) = [t.key] := by
  have hid : (UInt32.ofNat t.trans_id).toNat = t.trans_id := by
    rw [h.trans_id_eq, UInt32.ofNat_toNat]
  have hfrom : (UInt64.ofNat t.from_aie_ptr.length).toNat = t.from_aie_ptr.length :=
    UInt64.toNat_ofNat_of_lt' (by have := h.from_aie_lt; simp only [UInt64.size]; omega)
  simp only [payload, Request.keys, Transaction.key, PlBuffers.sizes, Transaction.buffers, hid,
    hfrom, h.perf_length]

theorem Made.payload_small {r : Ref} {setup : Setup} {t : Transaction} (h : Made r setup t) :
    ¬ MgrServer.Payload.Large ⟨t.cfg_ptr, t.to_aie_ptr, UInt64.ofNat t.from_aie_ptr.length⟩ := by
  have hcfg := h.cfg_length
  have hto := h.to_aie_lt
  have hfrom := h.from_aie_lt
  have hnat : (UInt64.ofNat t.from_aie_ptr.length).toNat = t.from_aie_ptr.length :=
    UInt64.toNat_ofNat_of_lt' (by simp only [UInt64.size]; omega)
  simp only [MgrServer.Payload.Large, hnat, not_or, Nat.not_le]
  exact ⟨by omega, hto, hfrom⟩

end MgrClient

namespace System

variable {s s' : System} {r : Ref}

def perfWords (s : System) : Nat := u32 (s.server.setup.num_channels * 4)

def carried (s : System) : List Key := s.toServer.flatMap (Request.keys s.perfWords)

theorem carried_eq_nil (h : ∀ m ∈ s.toServer, ¬ m.IsTransaction) : s.carried = [] :=
  List.flatMap_eq_nil_iff.mpr fun m hm => keys_eq_nil _ (h m hm)

structure Offer (s : System) : Prop where
  setup_eq : s.server.setup = s.client.setup
  fresh : ∀ r t, s.client.main.fresh = some r → s.client.heap r = some t →
    MgrClient.Made r s.client.setup t
  asked : ∀ n r k, .runTestHarness n ∈ s.toServer → s.client.main = .asking r k →
    n.toNat = s.client.usage r
  told : ∀ n, s.server.session.told = some n →
    (s.Owes → ∀ r, s.client.main.offered = some r → s.client.usage r = n.toNat)
      ∧ ∀ key ∈ s.carried, keyUsage key = n.toNat
  created : ∀ a n, s.server.session = .created a n → ∀ umode id timeout q rest,
    s.toServer = .transaction umode id timeout q :: rest → ∀ t, s.server.heap a = some t →
    t.trans_id = id.toNat ∧ t.perf_ptr.length = s.perfWords
  small : ∀ umode id timeout q, .transaction umode id timeout q ∈ s.toServer →
    (∃ mode, TestMode.ofNat? umode.toNat = some mode) ∧ ¬ q.Large

/-! ### Steps of the client -/

def Bare (m : Request) : Prop := ¬ m.IsTransaction ∧ ∀ n, m ≠ .runTestHarness n

theorem carried_append {extra : List Request} (hserver : s'.server = s.server)
    (hto : s'.toServer = s.toServer ++ extra) (hextra : ∀ m ∈ extra, ¬ m.IsTransaction) :
    s'.carried = s.carried := by
  rw [carried, carried, perfWords, perfWords, hserver, hto, List.flatMap_append,
    List.flatMap_eq_nil_iff.mpr fun m hm => keys_eq_nil _ (hextra m hm), List.append_nil]

/-- The head of a queue that is not empty stays when something is sent. -/
theorem head_of_append {m : Request} {queue extra rest : List Request} (hne : queue ≠ [])
    (h : queue ++ extra = m :: rest) : ∃ rest', queue = m :: rest' := by
  obtain ⟨m', rest', rfl⟩ := List.exists_cons_of_ne_nil hne
  rw [List.cons_append, List.cons.injEq] at h
  exact ⟨rest', by rw [h.1]⟩

theorem Offer.client (h : s.Offer) (hwire : s.Wire) (hserver : s'.server = s.server)
    (hsetup : s'.client.setup = s.client.setup)
    (hfresh : ∀ r, s'.client.main.fresh = some r → s.client.main.fresh = some r
      ∧ s'.client.heap r = s.client.heap r)
    (hasking : ∀ r k, s'.client.main = .asking r k → s.client.main = .asking r k)
    {extra : List Request} (hto : s'.toServer = s.toServer ++ extra) (hextra : ∀ m ∈ extra, Bare m)
    (howes : s'.Owes → ∀ r, s'.client.main.offered = some r →
      s.Owes ∧ s.client.main.offered = some r) : s'.Offer := by
  have hold : ∀ {m}, m ∈ s'.toServer → ¬ Bare m → m ∈ s.toServer := by
    intro m hm hbare
    rw [hto] at hm
    exact (List.mem_append.mp hm).resolve_right fun hnew => hbare (hextra m hnew)
  have husage : ∀ r, s'.client.main.fresh = some r → s'.client.usage r = s.client.usage r :=
    fun r hr => MgrClient.usage_congr (hfresh r hr).2
  refine ⟨by rw [hserver, hsetup, h.setup_eq], fun r t hr ht => ?_, fun n r k hn hr => ?_,
    fun n hn => ⟨fun hO r hr => ?_, ?_⟩, fun a n ha umode id timeout q rest hto' t ht => ?_,
    fun umode id timeout q hq => h.small umode id timeout q (hold hq fun hb => hb.1 trivial)⟩
  · rw [hsetup]
    rw [(hfresh r hr).2] at ht
    exact h.fresh r t (hfresh r hr).1 ht
  · rw [husage r (by rw [hr]; rfl)]
    exact h.asked n r k (hold hn fun hb => hb.2 n rfl) (hasking r k hr)
  · rw [hserver] at hn
    rw [husage r (MainPc.fresh_of_offered hr)]
    exact (h.told n hn).1 (howes hO r hr).1 r (howes hO r hr).2
  · rw [carried_append hserver hto fun m hm => (hextra m hm).1]
    rw [hserver] at hn
    exact (h.told n hn).2
  · rw [hserver] at ha ht
    rw [perfWords, hserver]
    rw [hto] at hto'
    obtain ⟨rest', hhead⟩ := head_of_append (hwire.created a n ha) hto'
    exact h.created a n ha umode id timeout q rest' hhead t ht

theorem Offer.empty (h : s.Offer) (hwire : s.Wire) (hserver : s'.server = s.server)
    (hsetup : s'.client.setup = s.client.setup) (hfresh : s'.client.main.fresh = none)
    {extra : List Request} (hto : s'.toServer = s.toServer ++ extra)
    (hextra : ∀ m ∈ extra, Bare m) : s'.Offer := by
  refine h.client hwire hserver hsetup (fun r hr => ?_) (fun r k hr => ?_) hto hextra
    fun _ r hr => ?_
  · rw [hfresh] at hr
    cases hr
  · rw [hr] at hfresh
    cases hfresh
  · rw [MainPc.fresh_of_offered hr] at hfresh
    cases hfresh

theorem Offer.calm (h : s.Offer) (hwire : s.Wire) (hserver : s'.server = s.server)
    (hsetup : s'.client.setup = s.client.setup) (hcalm : s'.client.main.Calm)
    (hto : s'.toServer = s.toServer) : s'.Offer :=
  h.empty hwire hserver hsetup hcalm.fresh_eq (hto.trans (List.append_nil _).symm) (by simp)

theorem Offer.ask (h : s.Offer) (hwire : s.Wire) {k : Nat} (hmain : s.client.main = .sizing r [] k)
    (hreq : s.client.req_mtx = none) :
    ((s.withClient ((s.client.lockReq .main).goto (.asking r k))).send
      (.runTestHarness (UInt64.ofNat (s.client.usage r)))).Offer := by
  obtain ⟨hempty, -, hsilent⟩ := hwire.silent (due_of_none hreq)
  have hnot : ∀ n, .runTestHarness n ∉ s.toServer := fun n hn => by cases hsilent _ hn
  refine ⟨h.setup_eq, fun ρ t hρ ht => h.fresh ρ t ?_ ht, fun n ρ k' hn hρ => ?_,
    fun n hn => ⟨fun hO => ?_, ?_⟩, fun a n ha umode id timeout q rest hto t ht => ?_,
    fun umode id timeout q hq => ?_⟩
  · cases hρ
    rw [hmain]
    rfl
  · cases hρ
    have hn' := (List.mem_append.mp hn).resolve_left (hnot n)
    cases List.mem_singleton.mp hn'
    exact UInt64.toNat_ofNat_of_lt' (s.client.usage_lt r)
  · rcases hO with ⟨ρ, hρ⟩ | hmem
    · cases hρ
    · replace hmem : .trans_accepted true ∈ s.toClient := hmem
      rw [hempty] at hmem
      cases hmem
  · intro key hkey
    rw [carried, System.send, List.flatMap_append, List.flatMap_singleton] at hkey
    exact (h.told n hn).2 key ((List.mem_append.mp hkey).resolve_right List.not_mem_nil)
  · obtain ⟨rest', hhead⟩ := head_of_append (hwire.created a n ha) hto
    exact h.created a n ha umode id timeout q rest' hhead t ht
  · refine h.small umode id timeout q ((List.mem_append.mp hq).resolve_right fun hnew => ?_)
    cases List.mem_singleton.mp hnew

theorem Offer.send (h : s.Offer) (hwire : s.Wire) {t : Transaction}
    (hmain : s.client.main = .accepted r) (ht : s.client.heap r = some t) :
    ((s.withClient (s.client.goto (.sent r))).send (MgrClient.payload t)).Offer := by
  have hmade : MgrClient.Made r s.client.setup t := h.fresh r t (by rw [hmain]; rfl) ht
  have howes : s.Owes := Or.inl ⟨r, hmain⟩
  obtain ⟨hneeds, hnil⟩ := hwire.owed howes
  have hto : ((s.withClient (s.client.goto (.sent r))).send (MgrClient.payload t)).toServer
      = [MgrClient.payload t] := by
    rw [System.send, withClient, hnil, List.nil_append]
  refine ⟨h.setup_eq, fun ρ u hρ hu => h.fresh ρ u ?_ hu, fun n ρ k hn hρ => ?_,
    fun n hn => ⟨fun hO ρ hρ => ?_, fun key hkey => ?_⟩, fun a n ha => ?_,
    fun umode id timeout q hq => ?_⟩
  · cases hρ
    rw [hmain]
    rfl
  · cases hρ
  · cases hρ
  · rw [carried, hto, perfWords, List.flatMap_singleton] at hkey
    replace hkey : key ∈ (MgrClient.payload t).keys (u32 (s.server.setup.num_channels * 4)) := hkey
    rw [h.setup_eq, hmade.payload_keys, List.mem_singleton] at hkey
    rw [hkey, keyUsage_key, ← MgrClient.usage_of_some ht]
    exact (h.told n hn).1 howes r (by rw [hmain]; rfl)
  · exact absurd hnil (hwire.created a n ha)
  · rw [hto, List.mem_singleton] at hq
    simp only [MgrClient.payload, Request.transaction.injEq] at hq
    obtain ⟨rfl, -, -, rfl⟩ := hq
    exact ⟨⟨t.mode, by cases t.mode <;> rfl⟩, hmade.payload_small⟩

theorem Offer.mainMoves (h : s.Offer) (hwire : s.Wire) (hsession : s.server.session ≠ .ended)
    (hmoves : s.MainMoves s') : s'.Offer := by
  cases hmoves with
  | @created mode timeout t main hmain hmade hmain' =>
      refine ⟨h.setup_eq, fun r u hr hu => ?_, fun n r k hn hr => ?_, fun n hn =>
        ⟨fun _ r hr => ?_, (h.told n hn).2⟩, h.created, h.small⟩
      · rcases hmain' with rfl | ⟨rfl, -⟩ <;> cases hr
        cases (Function.update_self ..).symm.trans hu
        exact hmade
      · rcases hmain' with rfl | ⟨rfl, -⟩ <;> cases hr
      · rcases hmain' with rfl | ⟨rfl, -⟩ <;> cases hr
  | goto hmain hcalm => exact h.calm hwire rfl rfl hcalm rfl
  | size hmain =>
      exact h.client hwire rfl rfl (fun r hr => ⟨by rw [hmain]; exact hr, rfl⟩) (by rintro _ _ ⟨⟩)
        (List.append_nil _).symm (by simp) (by rintro _ _ ⟨⟩)
  | ask hmain hreq => exact h.ask hwire hmain hreq
  | @answered r k b answers hmain hanswers =>
      cases b
      · exact h.calm hwire rfl rfl trivial rfl
      · refine h.client hwire rfl rfl (fun r hr => ⟨by rw [hmain]; exact hr, rfl⟩)
          (by rintro _ _ ⟨⟩) (List.append_nil _).symm (by simp) fun _ r hr => ⟨Or.inr ?_, ?_⟩
        · rw [hanswers]
          exact List.mem_cons_self
        · rw [hmain]
          exact hr
  | send hmain ht => exact h.send hwire hmain ht
  | spawn hmain ht => exact h.empty hwire rfl rfl rfl (List.append_nil _).symm (by simp)
  | @request q k hmain hreq =>
      refine h.empty hwire rfl rfl rfl rfl fun m hm => ?_
      cases List.mem_singleton.mp hm
      exact ⟨id, by rintro _ ⟨⟩⟩
  | unanswered hmain hcalm => exact h.calm hwire rfl rfl hcalm rfl
  | exchanged hmain hanswers hq hcalm => exact h.calm hwire rfl rfl hcalm rfl
  | fails hmain hgone => exact absurd hgone.1 hsession
  | setTimeOut hmain hpending ht =>
      exact h.empty hwire rfl rfl rfl (List.append_nil _).symm (by simp)
  | join hmain hpc hcalm => exact h.calm hwire rfl rfl hcalm rfl
  | destroy hmain hreq =>
      refine h.empty hwire rfl rfl rfl rfl fun m hm => ?_
      cases List.mem_singleton.mp hm
      exact ⟨id, by rintro _ ⟨⟩⟩
  | release hmain =>
      refine h.empty hwire rfl rfl ?_ (List.append_nil _).symm (by simp)
      simp only [withClient, MgrClient.release, MgrClient.goto]
      split <;> rfl

/-- A waiter writes its own transaction, which is pending. -/
theorem Offer.waiter (h : s.Offer) (hwire : s.Wire) (hbook : s.client.Book) {pc : WaiterPc}
    (hpc : s.client.pc r = pc) (hret : pc ≠ .returned) (hserver : s'.server = s.server)
    (hsetup : s'.client.setup = s.client.setup) (hmain : s'.client.main = s.client.main)
    (hheap : ∀ ρ, ρ ≠ r → s'.client.heap ρ = s.client.heap ρ) {extra : List Request}
    (hto : s'.toServer = s.toServer ++ extra) (hextra : ∀ m ∈ extra, Bare m)
    (hcl : ∀ answer ∈ s'.toClient, answer ∈ s.toClient) : s'.Offer := by
  refine h.client hwire hserver hsetup (fun ρ hρ => ?_) (fun ρ k hρ => by rwa [hmain] at hρ) hto
    hextra fun hO ρ hρ => ⟨?_, by rwa [hmain] at hρ⟩
  · rw [hmain] at hρ
    refine ⟨hρ, hheap ρ ?_⟩
    rintro rfl
    exact (hbook.fresh ρ hρ).2 (hbook.running ρ (by rwa [hpc]))
  · rcases hO with ⟨ρ', hρ'⟩ | hmem
    · exact Or.inl ⟨ρ', by rwa [hmain] at hρ'⟩
    · exact Or.inr (hcl _ hmem)

theorem Offer.waiterMoves {t : Transaction} (h : s.Offer) (hwire : s.Wire) (hc : s.client.Inv)
    (hsession : s.server.session ≠ .ended) (hmoves : s.WaiterMoves r t s') : s'.Offer := by
  have hset : ∀ (t' : Transaction), ∀ ρ, ρ ≠ r →
      (s.client.setTrans r t').heap ρ = s.client.heap ρ :=
      fun t' ρ hρ => Function.update_of_ne hρ ..
  cases hmoves with
  | lockQuery hpc hquery =>
      exact h.waiter hwire hc.book hpc (by simp) rfl rfl rfl (fun _ _ => rfl)
        (List.append_nil _).symm (by simp) fun _ => id
  | test hpc =>
      exact h.waiter hwire hc.book hpc (by simp) rfl rfl rfl (fun _ _ => rfl)
        (List.append_nil _).symm (by simp) fun _ => id
  | query hpc hreq =>
      refine h.waiter hwire hc.book hpc (by simp) rfl rfl rfl (fun _ _ => rfl) rfl (fun m hm => ?_)
        fun _ => id
      cases List.mem_singleton.mp hm
      exact ⟨id, by rintro _ ⟨⟩⟩
  | queried hpc hanswers hpc' =>
      exact h.waiter hwire hc.book hpc (by simp) rfl rfl rfl (fun _ _ => rfl)
        (List.append_nil _).symm (by simp) fun _ => List.mem_of_mem_tail
  | lockReq hpc hreq =>
      exact h.waiter hwire hc.book hpc (by simp) rfl rfl rfl (fun _ _ => rfl)
        (List.append_nil _).symm (by simp) fun _ => id
  | unlockQuery hpc =>
      exact h.waiter hwire hc.book hpc (by simp) rfl rfl rfl (fun _ _ => rfl)
        (List.append_nil _).symm (by simp) fun _ => id
  | wait hpc =>
      refine h.waiter hwire hc.book hpc (by simp) rfl rfl rfl (fun _ _ => rfl) rfl (fun m hm => ?_)
        fun _ => id
      cases List.mem_singleton.mp hm
      exact ⟨id, by rintro _ ⟨⟩⟩
  | recvStatus hpc hanswers =>
      exact h.waiter hwire hc.book hpc (by simp) rfl rfl rfl (fun _ _ => rfl)
        (List.append_nil _).symm (by simp) fun _ => List.mem_of_mem_tail
  | setStatus hpc =>
      exact h.waiter hwire hc.book hpc (by simp) rfl rfl rfl (hset _)
        (List.append_nil _).symm (by simp) fun _ => id
  | recvFromAie hpc hanswers =>
      exact h.waiter hwire hc.book hpc (by simp) rfl rfl rfl (hset _)
        (List.append_nil _).symm (by simp) fun _ => List.mem_of_mem_tail
  | recvPerf hpc hanswers =>
      exact h.waiter hwire hc.book hpc (by simp) rfl rfl rfl (hset _)
        (List.append_nil _).symm (by simp) fun _ => List.mem_of_mem_tail
  | unlockReq hpc =>
      exact h.waiter hwire hc.book hpc (by simp) rfl rfl rfl (fun _ _ => rfl)
        (List.append_nil _).symm (by simp) fun _ => id
  | handleOutputs hpc ht' =>
      exact h.waiter hwire hc.book hpc (by simp) rfl rfl rfl (hset _)
        (List.append_nil _).symm (by simp) fun _ => id
  | throws hpc hgone => exact absurd hgone.1 hsession

/-! ### Steps of the server -/

theorem Offer.server (h : s.Offer) (hclient : s'.client = s.client)
    (hsetup : s'.server.setup = s.server.setup) (hto : ∀ m ∈ s'.toServer, m ∈ s.toServer)
    (htold : s'.server.session.told = none) : s'.Offer := by
  refine ⟨by rw [hsetup, hclient, h.setup_eq], ?_, fun n r k hn hr => ?_, fun n hn => ?_,
    fun a n ha => ?_, fun umode id timeout q hq => h.small umode id timeout q (hto _ hq)⟩
  · rw [hclient]
    exact h.fresh
  · rw [hclient] at hr ⊢
    exact h.asked n r k (hto _ hn) hr
  · rw [htold] at hn
    cases hn
  · rw [ha] at htold
    cases htold

theorem Offer.admitted (h : s.Offer) (hwire : s.Wire) {n : UInt64} {rest : List Request}
    (hsession : s.server.session = .idle) (hserver : s.toServer = .runTestHarness n :: rest) :
    ({ s with
      server := { s.server with session := .admitted n }
      toServer := rest
      toClient := s.toClient ++ [.trans_accepted true] } : System).Offer := by
  obtain ⟨hnot, htrans⟩ := hwire.free (by rw [hsession]; exact id)
  refine ⟨h.setup_eq, h.fresh, fun n r k hn hr => h.asked n r k (mem_of_rest hserver _ hn) hr,
    fun n' hn =>
    ⟨fun _ r hr => ?_, fun key hkey => ?_⟩, (by rintro _ _ ⟨⟩), fun umode id timeout q hq =>
    h.small umode id timeout q (mem_of_rest hserver _ hq)⟩
  · cases hn
    cases hmain : s.client.main with
    | asking ρ k =>
        replace hr : s.client.main.offered = some r := hr
        rw [hmain] at hr
        cases hr
        exact (h.asked n r k (by rw [hserver]; exact List.mem_cons_self) hmain).symm
    | accepted ρ => exact absurd (Or.inl ⟨ρ, hmain⟩) hnot
    | _ =>
        replace hr : s.client.main.offered = some r := hr
        rw [hmain] at hr
        cases hr
  · rw [carried_eq_nil fun m hm => htrans m (mem_of_rest hserver m hm)] at hkey
    cases hkey

theorem Offer.accept (h : s.Offer) {a : Addr} {n : UInt64} {umode : UInt8}
    {id timeout : UInt32} {q : MgrServer.Payload} {rest : List Request} {mode : TestMode}
    (hsession : s.server.session = .admitted n)
    (hserver : s.toServer = .transaction umode id timeout q :: rest) :
    ({ s with server := s.server.accept a (.new id.toNat mode s.server.setup.num_channels
        s.server.setup.word_size s.server.setup.depth timeout.toNat 0) n } : System).Offer := by
  refine ⟨h.setup_eq, h.fresh, h.asked, fun n' hn => ?_,
    fun b n' hb umode' id' timeout' q' rest' hto t ht => ?_, h.small⟩
  · cases hn
    exact h.told n (by rw [hsession]; rfl)
  · cases hb
    cases (Function.update_self ..).symm.trans ht
    cases hserver.symm.trans hto
    exact ⟨rfl, List.length_replicate⟩

theorem setup_of_threadMoves {m m' : MgrServer} (h : m.ThreadMoves m') : m'.setup = m.setup := by
  cases h <;> rfl

theorem Offer.thread (h : s.Offer) {m' : MgrServer} (hmoves : s.server.ThreadMoves m') :
    ({ s with server := m' } : System).Offer := by
  have hframe := hmoves.frame
  have hsetup := setup_of_threadMoves hmoves
  have hwords : ({ s with server := m' } : System).perfWords = s.perfWords := by
    rw [perfWords, perfWords, hsetup]
  refine ⟨hsetup.trans h.setup_eq, h.fresh, h.asked, fun n hn => ?_, fun a n ha umode id timeout q
    rest hto t ht => ?_, h.small⟩
  · rw [hframe.session_eq] at hn
    rw [carried, hwords]
    exact h.told n hn
  · obtain ⟨u, hu, hkey⟩ := hframe.heap_eq' ht
    rw [hwords, ← Transaction.trans_id_of_key hkey, ← Transaction.perf_length_of_key hkey]
    exact h.created a n (hframe.session_eq.symm.trans ha) umode id timeout q rest hto u hu

theorem Offer.serverMoves (h : s.Offer) (hwire : s.Wire) (hm : s.server.Inv)
    (hsession' : s'.server.session ≠ .ended) (hmoves : s.ServerMoves s') : s'.Offer := by
  cases hmoves with
  | ended hclient hserver => exact absurd (by rw [hserver]; rfl) hsession'
  | refused hsession hserver hgt =>
      exact h.server rfl rfl (mem_of_rest hserver) (by rw [hsession]; rfl)
  | admitted hsession hserver hle => exact h.admitted hwire hsession hserver
  | queried hsession hserver ha ht =>
      exact h.server rfl rfl (mem_of_rest hserver) (by rw [hsession]; rfl)
  | waits hsession hserver ha ht hid => exact h.server rfl rfl (mem_of_rest hserver) rfl
  | @other q rest hsession hserver =>
      cases q <;> exact h.server rfl rfl (mem_of_rest hserver) (congrArg SessionPc.told hsession)
  | created hsession hserver ha hid => exact h.accept hsession hserver
  | received hsession hserver ht hq hsize => exact h.server rfl rfl (mem_of_rest hserver) rfl
  | joined hsession hpc ht => exact h.server rfl rfl (fun _ => id) rfl
  | retired hsession ht => exact h.server rfl rfl (fun _ => id) rfl
  | thread hsession hstep hl => exact h.thread (MgrServer.threadMoves_of_step hm hl hstep)

/-- The size of a transaction is the one the server has been told. -/
theorem Offer.size_eq (h : s.Offer) {a : Addr} {n : UInt64} {umode : UInt8} {id timeout : UInt32}
    {q : MgrServer.Payload} {rest : List Request} {t : Transaction}
    (hsession : s.server.session = .created a n)
    (hserver : s.toServer = .transaction umode id timeout q :: rest)
    (ht : s.server.heap a = some t) :
    (q.fill t).getMemoryUsage = n.toNat := by
  obtain ⟨hid, hperf⟩ := h.created a n hsession umode id timeout q rest hserver t ht
  rw [← (h.told n (by rw [hsession]; rfl)).2
    (id.toNat, q.cfg_ptr.length, s.perfWords, q.to_aie_ptr.length, q.from_aie_size.toNat)
    (by rw [carried, hserver]; simp [Request.keys]), ← keyUsage_key]
  simp only [Transaction.key, PlBuffers.sizes, Transaction.buffers, MgrServer.Payload.fill,
    List.length_replicate, hid, hperf]

/-! ### All runs -/

variable {setup : Setup} {graphs : Nat} {monitorInterval : UInt64} {C : SystemLabel → System → Prop}

theorem offer_new (setup : Setup) (graphs : Nat) (monitorInterval : UInt64) :
    (new setup graphs monitorInterval).Offer :=
  ⟨rfl, nofun, nofun, nofun, nofun, nofun⟩

theorem offer_of_run (hrun : lts.RunIf C (.new setup graphs monitorInterval) s)
    (hsession : s.server.session ≠ .ended) : s.Offer := by
  refine hrun.invariant_of (I := fun s => s.server.session ≠ .ended → s.Offer)
    (J := fun s => s.client.Inv ∧ (s.server.session ≠ .ended → s.server.Inv ∧ s.Wire))
    (fun s hs => ⟨MgrClient.inv_of_run hs, fun h => ⟨server_inv_of_run hs h, wire_of_run hs h⟩⟩) ?_
    (fun _ => offer_new setup graphs monitorInterval) hsession
  intro l s s' hJ hI _ hstep hsession'
  have hsession := session_ne_of_step hstep hsession'
  obtain ⟨hinv, hwire⟩ := hJ.2 hsession
  rcases step_cases hstep with hserver | ⟨-, hmain⟩ | ⟨-, r, t, -, hwaiter⟩
  · exact (hI hsession).serverMoves hwire hinv hsession' hserver
  · exact (hI hsession).mainMoves hwire hsession hmain
  · exact (hI hsession).waiterMoves hwire hJ.1 hsession hwaiter

end System

end AieTestHarness
