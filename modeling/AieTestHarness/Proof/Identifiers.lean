import AieTestHarness.Proof.Inflight
import AieTestHarness.Proof.Lookup

/-!
# The identifiers of transactions

The client numbers its transactions with a counter of 32 bits, those that are rejected too, and the
session keeps the identifier of a transaction that has been waited for. The first `2 ^ 32`
transactions of a client have different identifiers.
-/

namespace AieTestHarness

/-- The transaction that has a number and is not sent yet. -/
def MainPc.unsent : MainPc → Option Ref
  | .sizing r _ _ | .asking r _ | .accepted r => some r
  | _ => none

namespace MainPc.Calm

variable {main : MainPc}

theorem ne_accepted (h : main.Calm) (r : Ref) : main ≠ .accepted r := by
  rintro rfl
  exact h

theorem unsent_eq (h : main.Calm) : main.unsent = none := by
  cases main <;> first | rfl | exact h.elim

end MainPc.Calm

namespace System

variable {s s' : System} {r : Ref} {l : SystemLabel}

/-! ### New identifiers -/

/-- A transaction the session admits has the identifier of none it has accepted before. -/
def NewIds : SystemLabel → System → Prop
  | .answered, s => ∀ r memorySize n, s.client.main = .asking r memorySize →
    s.server.session = .admitted n → (transId r).toNat ∉ acceptedIds s.server.log
  | _, _ => True

structure Ids (s : System) : Prop where
  accepted : ∀ r, s.client.main = .accepted r → s.server.id2trans (transId r).toNat = none
  admitted : ∀ n, s.server.session = .admitted n → ∀ umode id timeout q,
    .transaction umode id timeout q ∈ s.toServer → s.server.id2trans id.toNat = none

theorem Ids.client (h : s.Ids) (hserver : s'.server = s.server)
    (haccepted : ∀ r, s'.client.main = .accepted r → s.client.main = .accepted r)
    {extra : List Request} (hto : s'.toServer = s.toServer ++ extra)
    (hextra : ∀ m ∈ extra, ¬ m.IsTransaction) : s'.Ids where
  accepted r hr := by
    rw [hserver]
    exact h.accepted r (haccepted r hr)
  admitted n hn umode id timeout q hmem := by
    rw [hserver] at hn ⊢
    rw [hto] at hmem
    exact h.admitted n hn umode id timeout q
      ((List.mem_append.mp hmem).resolve_right fun hnew => hextra _ hnew trivial)

theorem Ids.calm (h : s.Ids) (hserver : s'.server = s.server) (hto : s'.toServer = s.toServer)
    (hmain : ∀ r, s'.client.main ≠ .accepted r) : s'.Ids := by
  refine h.client hserver (fun r hr => absurd hr (hmain r)) (hto.trans (List.append_nil _).symm) ?_
  exact fun m hm => absurd hm List.not_mem_nil

theorem Wire.admitted_of_owes (hwire : s.Wire) (howes : s.Owes) :
    ∃ n, s.server.session = .admitted n := by
  obtain ⟨hneeds, hnil⟩ := hwire.owed howes
  cases hsession : s.server.session with
  | admitted n => exact ⟨n, rfl⟩
  | created a n => exact absurd hnil (hwire.created a n hsession)
  | _ =>
      rw [hsession] at hneeds
      exact hneeds.elim

theorem answered_of_step {memorySize : Nat} (hstep : lts.step l s = some s')
    (hmain : s.client.main = .asking r memorySize) (hmain' : s'.client.main = .accepted r) :
    l = .answered := by
  have h := mainStep_of_step hstep (by simp [hmain, hmain']) (by simp [hmain'])
  cases l <;> simp [mainStep, runStep, exchangeStep, waitStep, hmain] at h
  case answered => rfl
  case fails =>
    rw [← h.2] at hmain'
    cases hmain'

theorem Ids.mainMoves (h : s.Ids) (hwire : s.Wire) (hc : s.client.Inv)
    (hseen : ∀ k, (s.server.id2trans k).isSome → k ∈ acceptedIds s.server.log) (hl : NewIds l s)
    (hstep : lts.step l s = some s') (hmoves : s.MainMoves s') : s'.Ids := by
  cases hmoves with
  | created hmain hmade hmain' =>
      refine h.calm rfl rfl fun r hr => ?_
      rcases hmain' with rfl | ⟨rfl, -⟩ <;> cases hr
  | goto hmain hcalm => exact h.calm rfl rfl (hcalm.ne_accepted)
  | ask => exact h.client rfl (by rintro _ ⟨⟩) rfl (by simp [Request.IsTransaction])
  | @answered r memorySize b answers hmain hanswers =>
      cases b with
      | false => exact h.calm rfl rfl (by rintro _ ⟨⟩)
      | true =>
          have hlabel := answered_of_step hstep hmain rfl
          subst hlabel
          refine ⟨fun ρ hρ => ?_, h.admitted⟩
          cases hρ
          obtain ⟨n, hsession⟩ := hwire.admitted_of_owes
            (Or.inr (by rw [hanswers]; exact List.mem_cons_self))
          have hnew := hl r memorySize n hmain hsession
          exact Option.not_isSome_iff_eq_none.mp fun hsome => hnew (hseen _ hsome)
  | @send r t hmain ht =>
      have hnil := (hwire.owed (Or.inl ⟨r, hmain⟩)).2
      refine ⟨by rintro _ ⟨⟩, fun n hn umode id timeout q hmem => ?_⟩
      replace hmem : Request.transaction umode id timeout q ∈ s.toServer ++ [MgrClient.payload t] :=
        hmem
      rw [hnil, List.nil_append, List.mem_singleton] at hmem
      cases hmem
      rw [payload_id hc.owns ht]
      exact h.accepted r hmain
  | spawn => exact h.calm rfl rfl (by rintro _ ⟨⟩)
  | request => exact h.client rfl (by rintro _ ⟨⟩) rfl (by simp [Request.IsTransaction])
  | unanswered hmain hcalm => exact h.calm rfl rfl (hcalm.ne_accepted)
  | exchanged hmain hanswers hq hcalm => exact h.calm rfl rfl (hcalm.ne_accepted)
  | join hmain hpc hcalm => exact h.calm rfl rfl (hcalm.ne_accepted)
  | destroy => exact h.client rfl (by rintro _ ⟨⟩) rfl (by simp [Request.IsTransaction])
  | release =>
      refine h.calm rfl rfl fun r => ?_
      simp only [withClient, MgrClient.release, MgrClient.goto]
      split <;> simp
  | _ => exact h.calm rfl rfl (by rintro _ ⟨⟩)

theorem Ids.waiterMoves {t : Transaction} (h : s.Ids) (hmoves : s.WaiterMoves r t s') : s'.Ids := by
  cases hmoves with
  | throws => exact h.calm rfl rfl (by rintro _ ⟨⟩)
  | query => exact h.client rfl (fun _ => id) rfl (by simp [Request.IsTransaction])
  | wait => exact h.client rfl (fun _ => id) rfl (by simp [Request.IsTransaction])
  | _ => exact h.client rfl (fun _ => id) (List.append_nil _).symm nofun

theorem Ids.server (h : s.Ids) (hclient : s'.client = s.client)
    (hid : s'.server.id2trans = s.server.id2trans)
    (hadmitted : ∀ n, s'.server.session = .admitted n → (∀ m ∈ s'.toServer, ¬ m.IsTransaction)
      ∨ s.server.session = .admitted n ∧ s'.toServer = s.toServer) : s'.Ids where
  accepted r hr := by
    rw [hid]
    exact h.accepted r (hclient ▸ hr)
  admitted n hn umode id timeout q hmem := by
    rw [hid]
    rcases hadmitted n hn with hnone | ⟨hold, hto⟩
    · exact absurd trivial (hnone _ hmem)
    · exact h.admitted n hold umode id timeout q (hto ▸ hmem)

theorem Ids.serverMoves (h : s.Ids) (hwire : s.Wire) (hm : s.server.Inv)
    (hsession' : s'.server.session ≠ .ended) (hmoves : s.ServerMoves s') : s'.Ids := by
  cases hmoves with
  | ended _ hserver => exact absurd (by rw [hserver]; rfl) hsession'
  | refused hsession hserver =>
      exact h.server rfl rfl fun n hn => absurd (hsession.symm.trans hn) nofun
  | @admitted trans_size rest hsession hserver =>
      refine h.server rfl rfl fun n _ => Or.inl fun m hm => ?_
      exact (hwire.free (by rw [hsession]; exact id)).2 m (mem_of_rest hserver m hm)
  | queried hsession =>
      exact h.server rfl rfl fun n hn => absurd (hsession.symm.trans hn) nofun
  | waits hsession => exact h.server rfl rfl (by rintro _ ⟨⟩)
  | @other q rest hsession hserver =>
      have hidle : ∀ n, s.server.session ≠ .admitted n := by
        rw [hsession]
        nofun
      cases q <;> exact h.server rfl rfl fun n hn => absurd hn (hidle n)
  | @created a trans_size umode trans_id timeout q rest mode hsession hserver =>
      refine ⟨fun r hr => ?_, by rintro _ ⟨⟩⟩
      have hnil := (hwire.owed (Or.inl ⟨r, hr⟩)).2
      rw [hserver] at hnil
      cases hnil
  | received => exact h.server rfl rfl (by rintro _ ⟨⟩)
  | joined => exact h.server rfl rfl (by rintro _ ⟨⟩)
  | retired => exact h.server rfl rfl (by rintro _ ⟨⟩)
  | @thread l m' hsession hstep hl =>
      have hframe := (MgrServer.threadMoves_of_step hm hl hstep).frame
      exact h.server rfl hframe.id2trans_eq fun n hn => Or.inr ⟨hframe.session_eq ▸ hn, rfl⟩

/-! ### The counter of the client -/

/-- The session has seen the identifier, or it is on its way. -/
def Used (s : System) (id : Nat) : Prop :=
  s.server.id2trans id ≠ none
    ∨ ∃ umode trans_id timeout q, .transaction umode trans_id timeout q ∈ s.toServer
    ∧ trans_id.toNat = id

def Numbered (s : System) : Prop :=
  ∀ id, s.Used id → ∃ r, r < s.client.created ∧ id = (transId r).toNat
    ∧ s.client.main.unsent ≠ some r

theorem Numbered.mono (h : s.Numbered) (hused : ∀ id, s'.Used id → s.Used id)
    (hcreated : s.client.created ≤ s'.client.created)
    (hunsent : ∀ r, r < s.client.created → s'.client.main.unsent = some r →
      s.client.main.unsent = some r) : s'.Numbered := by
  intro id hid
  obtain ⟨r, hlt, heq, hne⟩ := h id (hused id hid)
  exact ⟨r, Nat.lt_of_lt_of_le hlt hcreated, heq, fun hr => hne (hunsent r hlt hr)⟩

theorem Numbered.client (h : s.Numbered) (hserver : s'.server = s.server) {extra : List Request}
    (hto : s'.toServer = s.toServer ++ extra) (hextra : ∀ m ∈ extra, ¬ m.IsTransaction)
    (hcreated : s.client.created ≤ s'.client.created)
    (hunsent : ∀ r, r < s.client.created → s'.client.main.unsent = some r →
      s.client.main.unsent = some r) : s'.Numbered := by
  refine h.mono (fun id hid => ?_) hcreated hunsent
  rcases hid with hseen | ⟨umode, trans_id, timeout, q, hmem, rfl⟩
  · rw [hserver] at hseen
    exact Or.inl hseen
  · rw [hto] at hmem
    exact Or.inr ⟨umode, trans_id, timeout, q,
      (List.mem_append.mp hmem).resolve_right fun hnew => hextra _ hnew trivial, rfl⟩

theorem Numbered.calm (h : s.Numbered) (hserver : s'.server = s.server)
    (hto : s'.toServer = s.toServer) (hcreated : s.client.created ≤ s'.client.created)
    (hunsent : ∀ r, r < s.client.created → s'.client.main.unsent = some r →
      s.client.main.unsent = some r) : s'.Numbered := by
  refine h.client hserver (hto.trans (List.append_nil _).symm) ?_ hcreated hunsent
  exact fun m hm => absurd hm List.not_mem_nil

theorem Numbered.send (h : s.Numbered) (hc : s.client.Inv) {t : Transaction}
    (ht : s.client.heap r = some t) :
    ((s.withClient (s.client.goto (.sent r))).send (MgrClient.payload t)).Numbered := by
  intro id hid
  rcases hid with hseen | ⟨umode, trans_id, timeout, q, hmem, rfl⟩
  · obtain ⟨ρ, hlt, heq, -⟩ := h id (Or.inl hseen)
    exact ⟨ρ, hlt, heq, nofun⟩
  · replace hmem : Request.transaction umode trans_id timeout q ∈ s.toServer
      ++ [MgrClient.payload t] :=
      hmem
    rcases List.mem_append.mp hmem with hold | hnew
    · obtain ⟨ρ, hlt, heq, -⟩ := h _ (Or.inr ⟨umode, trans_id, timeout, q, hold, rfl⟩)
      exact ⟨ρ, hlt, heq, nofun⟩
    · cases List.mem_singleton.mp hnew
      refine ⟨r, (hc.owns.known r t ht).1, ?_, nofun⟩
      rw [payload_id hc.owns ht]

theorem Numbered.mainMoves (h : s.Numbered) (hc : s.client.Inv) (hmoves : s.MainMoves s') :
    s'.Numbered := by
  have hnone : ∀ {main : MainPc}, main.unsent = none → ∀ r, r < s.client.created →
      main.unsent = some r → s.client.main.unsent = some r := by
    intro main hmain r _ hr
    rw [hmain] at hr
    cases hr
  cases hmoves with
  | created _ hmade hmain' =>
      refine h.calm rfl rfl (Nat.le_succ _) fun ρ hlt hρ => ?_
      rcases hmain' with rfl | ⟨rfl, -⟩
      · cases hρ
      · cases hρ
        exact absurd hlt (Nat.lt_irrefl _)
  | size hmain =>
      refine h.calm rfl rfl (Nat.le_refl _) fun ρ _ hρ => ?_
      rw [hmain]
      exact hρ
  | ask hmain hreq =>
      refine h.client rfl rfl (by simp [Request.IsTransaction]) (Nat.le_refl _) fun ρ _ hρ => ?_
      rw [hmain]
      exact hρ
  | @answered r memorySize b answers hmain hanswers =>
      cases b with
      | false => exact h.calm rfl rfl (Nat.le_refl _) (hnone rfl)
      | true =>
          refine h.calm rfl rfl (Nat.le_refl _) fun ρ _ hρ => ?_
          rw [hmain]
          exact hρ
  | send _ ht => exact h.send hc ht
  | request => exact h.client rfl rfl (by simp [Request.IsTransaction]) (Nat.le_refl _) (hnone rfl)
  | destroy => exact h.client rfl rfl (by simp [Request.IsTransaction]) (Nat.le_refl _) (hnone rfl)
  | goto hmain hcalm => exact h.calm rfl rfl (Nat.le_refl _) (hnone (hcalm.unsent_eq))
  | unanswered hmain hcalm => exact h.calm rfl rfl (Nat.le_refl _) (hnone (hcalm.unsent_eq))
  | exchanged hmain hanswers hq hcalm =>
      exact h.calm rfl rfl (Nat.le_refl _) (hnone (hcalm.unsent_eq))
  | join hmain hpc hcalm => exact h.calm rfl rfl (Nat.le_refl _) (hnone (hcalm.unsent_eq))
  | release =>
      refine h.calm rfl rfl (Nat.le_refl _) (hnone ?_)
      simp only [withClient, MgrClient.release, MgrClient.goto]
      split <;> rfl
  | _ => exact h.calm rfl rfl (Nat.le_refl _) (hnone rfl)

theorem Numbered.waiterMoves {t : Transaction} (h : s.Numbered) (hmoves : s.WaiterMoves r t s') :
    s'.Numbered := by
  cases hmoves with
  | throws => exact h.calm rfl rfl (Nat.le_refl _) (by rintro _ _ ⟨⟩)
  | query =>
      exact h.client rfl rfl (by simp [Request.IsTransaction]) (Nat.le_refl _) fun _ _ => id
  | wait =>
      exact h.client rfl rfl (by simp [Request.IsTransaction]) (Nat.le_refl _) fun _ _ => id
  | _ => exact h.calm rfl rfl (Nat.le_refl _) fun _ _ => id

theorem Numbered.serverMoves (h : s.Numbered) (hm : s.server.Inv)
    (hsession' : s'.server.session ≠ .ended) (hmoves : s.ServerMoves s') : s'.Numbered := by
  have hkeep : ∀ {s' : System}, s'.client = s.client → s'.server.id2trans = s.server.id2trans →
      (∀ m ∈ s'.toServer, m ∈ s.toServer) → s'.Numbered := by
    intro s' hclient hid hto
    refine h.mono (fun id hused => ?_) (by rw [hclient]) fun r _ hr => by rwa [← hclient]
    rcases hused with hseen | ⟨umode, trans_id, timeout, q, hmem, rfl⟩
    · exact Or.inl (hid ▸ hseen)
    · exact Or.inr ⟨umode, trans_id, timeout, q, hto _ hmem, rfl⟩
  cases hmoves with
  | ended _ hserver => exact absurd (by rw [hserver]; rfl) hsession'
  | @created a trans_size umode trans_id timeout q rest mode hsession hserver =>
      refine h.mono (fun id hused => ?_) (Nat.le_refl _) fun _ _ => id
      rcases hused with hseen | hwire
      · by_cases hid : id = trans_id.toNat
        · refine Or.inr ⟨umode, trans_id, timeout, q, ?_, hid.symm⟩
          rw [hserver]
          exact List.mem_cons_self
        · exact Or.inl fun hnone => hseen ((Function.update_of_ne hid ..).trans hnone)
      · exact Or.inr hwire
  | @other q rest hsession hserver => cases q <;> exact hkeep rfl rfl (mem_of_rest hserver)
  | refused hsession hserver => exact hkeep rfl rfl (mem_of_rest hserver)
  | admitted hsession hserver => exact hkeep rfl rfl (mem_of_rest hserver)
  | queried hsession hserver => exact hkeep rfl rfl (mem_of_rest hserver)
  | waits hsession hserver => exact hkeep rfl rfl (mem_of_rest hserver)
  | received hsession hserver => exact hkeep rfl rfl (mem_of_rest hserver)
  | joined => exact hkeep rfl rfl fun _ => id
  | retired => exact hkeep rfl rfl fun _ => id
  | thread hsession hstep hl =>
      exact hkeep rfl (MgrServer.threadMoves_of_step hm hl hstep).frame.id2trans_eq fun _ => id

theorem transId_inj {r ρ : Ref} (hr : r < 2 ^ 32) (hρ : ρ < 2 ^ 32)
    (h : (transId r).toNat = (transId ρ).toNat) : r = ρ := by
  simp only [transId, UInt32.toNat_ofNat', Nat.mod_eq_of_lt hr, Nat.mod_eq_of_lt hρ] at h
  exact h

/-- Up to the `2 ^ 32`nd transaction of the client no identifier comes back. -/
theorem Numbered.newIds (h : s.Numbered) (hc : s.client.Inv) (hm : s.server.Inv)
    (hcreated : s.client.created ≤ 2 ^ 32) (l : SystemLabel) : NewIds l s := by
  cases l with
  | answered =>
      intro r memorySize n hmain _ haccepted
      have hseen := Option.isSome_iff_ne_none.mp (hm.record.known _ haccepted)
      obtain ⟨ρ, hlt, heq, hne⟩ := h _ (Or.inl hseen)
      have hr := (hc.book.fresh r (by rw [hmain]; rfl)).1
      refine hne ?_
      rw [hmain, ← transId_inj (Nat.lt_of_lt_of_le hr hcreated)
        (Nat.lt_of_lt_of_le hlt hcreated) heq]
      rfl
  | _ => trivial

/-! ### All runs -/

variable {setup : Setup} {graphs : Nat} {monitorInterval : UInt64} {C : SystemLabel → System → Prop}

theorem ids_of_run (hrun : lts.RunIf NewIds (.new setup graphs monitorInterval) s)
    (hsession : s.server.session ≠ .ended) : s.Ids := by
  refine hrun.invariant_of (I := fun s => s.server.session ≠ .ended → s.Ids)
    (J := fun s => s.server.session ≠ .ended → s.Served
      ∧ ∀ k, (s.server.id2trans k).isSome → k ∈ acceptedIds s.server.log)
    (fun s hs h => ⟨served_of_run hs h, MgrServer.accepted_of_run (server_run hs h)⟩) ?_
    (fun _ => ⟨nofun, nofun⟩) hsession
  intro l s s' hJ hI hl hstep hsession'
  have hsession := session_ne_of_step hstep hsession'
  obtain ⟨hs, hseen⟩ := hJ hsession
  rcases step_cases hstep with hserver | ⟨-, hmain⟩ | ⟨-, r, t, -, hwaiter⟩
  · exact (hI hsession).serverMoves hs.wire hs.server hsession' hserver
  · exact (hI hsession).mainMoves hs.wire hs.client hseen hl hstep hmain
  · exact (hI hsession).waiterMoves hwaiter

theorem numbered_of_run (hrun : lts.RunIf C (.new setup graphs monitorInterval) s)
    (hsession : s.server.session ≠ .ended) : s.Numbered := by
  refine hrun.invariant_of (I := fun s => s.server.session ≠ .ended → s.Numbered)
    (J := fun s => s.client.Inv ∧ (s.server.session ≠ .ended → s.server.Inv))
    (fun s hs => ⟨MgrClient.inv_of_run hs, server_inv_of_run hs⟩) ?_ (fun _ id hid => ?_) hsession
  · intro l s s' hJ hI _ hstep hsession'
    have hsession := session_ne_of_step hstep hsession'
    rcases step_cases hstep with hserver | ⟨-, hmain⟩ | ⟨-, r, t, -, hwaiter⟩
    · exact (hI hsession).serverMoves (hJ.2 hsession) hsession' hserver
    · exact (hI hsession).mainMoves hJ.1 hmain
    · exact (hI hsession).waiterMoves hwaiter
  · rcases hid with hseen | ⟨umode, trans_id, timeout, q, hmem, -⟩
    · exact absurd rfl hseen
    · cases hmem

end System

end AieTestHarness
