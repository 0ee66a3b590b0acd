import AieTestHarness.Proof.Completion
import AieTestHarness.Proof.Interval
import AieTestHarness.Proof.Outputs

/-!
# Calls of `waitForRes`

While the waiters go in turn, every transaction of the call can be completed, so the call can return
from wherever it stands. It watches over its wait and sets the interval again if the watchdog is on
and the interval it asks for fits into its types.
-/

namespace AieTestHarness

/-- `handleOutputs` finds all it copies, whatever the vectors are filled with. -/
def Transaction.HandsOut (t : Transaction) : Prop :=
  ∀ status mTimeOut from_aie_ptr perf_ptr, from_aie_ptr.length = t.from_aie_ptr.length →
    perf_ptr.length = t.perf_ptr.length →
    ∃ t', { t with status, mTimeOut, from_aie_ptr, perf_ptr }.handleOutputs = .ok t'

namespace System

open MgrClient

variable {s s' u : System} {S : UInt64} {timeout num_trans : UInt32} {r : Ref}

def HandsOut (s : System) (r : Ref) : Prop :=
  s.client.pc r = .returned ∨ ∀ t, s.client.heap r = some t → t.HandsOut

theorem HandsOut.keep (h : s.HandsOut r) (hheap : s'.client.heap r = s.client.heap r)
    (hpc : s'.client.pc r = s.client.pc r) : s'.HandsOut r := by
  unfold HandsOut
  rw [hheap, hpc]
  exact h

theorem HandsOut.setTrans (h : s.HandsOut r) {t t' : Transaction} (ht : s.client.heap r = some t)
    (hret : s.client.pc r ≠ .returned) (hheap : s'.client.heap r = some t')
    (h' : t.HandsOut → t'.HandsOut) : s'.HandsOut r := by
  refine Or.inr fun u hu => ?_
  cases hheap.symm.trans hu
  exact h' (h.resolve_left hret t ht)

theorem HandsOut.waiterMoves {ρ : Ref} {t : Transaction} (h : s.HandsOut r)
    (hreceipt : s.Receipt) (ht : s.client.heap ρ = some t) (hmoves : s.WaiterMoves ρ t s') :
    s'.HandsOut r := by
  by_cases hr : r = ρ
  · subst hr
    cases hmoves with
    | setStatus hpc =>
        exact h.setTrans ht (by simp [hpc]) (Function.update_self ..)
          fun hout _ mTimeOut from_aie_ptr perf_ptr => hout _ mTimeOut from_aie_ptr perf_ptr
    | recvFromAie hpc hanswers =>
        have hfits := hreceipt.fits r t (by rw [hpc]; trivial) ht _
          (by rw [hanswers]; exact List.mem_cons_self)
        refine h.setTrans ht (by simp [hpc]) (Function.update_self ..) ?_
        exact fun hout status mTimeOut _ perf_ptr hlen =>
          hout status mTimeOut _ perf_ptr (hlen.trans hfits)
    | recvPerf hpc hanswers =>
        have hfits := hreceipt.fits r t (by rw [hpc]; trivial) ht _
          (by rw [hanswers]; exact List.mem_cons_self)
        refine h.setTrans ht (by simp [hpc]) (Function.update_self ..) ?_
        exact fun hout status mTimeOut from_aie_ptr _ hlen hlen' =>
          hout status mTimeOut from_aie_ptr _ hlen (hlen'.trans hfits)
    | handleOutputs hpc ht' => exact Or.inl (Function.update_self ..)
    | throws hpc hgone => exact h.keep rfl rfl
    | _ =>
        refine h.imp (fun hret => ?_) id
        simp_all
  · have hother := hmoves.other hr
    exact h.keep hother.1 hother.2

theorem HandsOut.mainMoves (h : s.HandsOut r) (hlt : r < s.client.created)
    (hsent : ∀ ρ, s.client.main ≠ .sent ρ) (hmoves : s.MainMoves s') : s'.HandsOut r := by
  cases hmoves with
  | created hmain hmade hmain' =>
      refine h.keep ?_ rfl
      have hne := Nat.ne_of_lt hlt
      exact (Function.update_of_ne hne ..).trans (Function.update_of_ne hne ..)
  | @answered ρ memorySize b answers hmain hanswers => cases b <;> exact h.keep rfl rfl
  | spawn hmain ht => exact absurd hmain (hsent _)
  | @setTimeOut w ρ rest t hmain hpending ht =>
      by_cases hr : r = ρ
      · subst hr
        refine h.imp id fun hout u hu => ?_
        cases (Function.update_self ..).symm.trans hu
        exact fun status mTimeOut => hout t ht status mTimeOut
      · exact h.keep (Function.update_of_ne hr ..) rfl
  | destroy hmain hreq =>
      refine h.imp id fun hout u hu => hout u ?_
      simp only [withClient, System.send, MgrClient.destroy, MgrClient.lockReq] at hu
      split at hu
      · cases hu
      · exact hu
  | _ => exact h.keep rfl rfl

structure Calling (S : UInt64) (timeout : UInt32) (s : System) : Prop where
  going : s.Going
  inCall : InCall S timeout s.interval s.client.main
  handsOut : ∀ r ∈ s.client.pending_transactions, s.HandsOut r

theorem InCall.not_over {i : UInt64} {main : MainPc} (h : InCall S timeout i main) :
    ¬ main.Over := by
  cases main <;> first | exact h.elim | exact not_false

theorem InCall.ne_sent {i : UInt64} {main : MainPc} (h : InCall S timeout i main) (r : Ref) :
    main ≠ .sent r := by
  rintro rfl
  exact h

theorem pending_subset_of_step {l : SystemLabel} (hsent : ∀ ρ, s.client.main ≠ .sent ρ)
    (hstep : lts.step l s = some s') :
    s'.client.pending_transactions ⊆ s.client.pending_transactions := by
  rcases step_cases hstep with hserver | ⟨-, hmain⟩ | ⟨-, ρ, t, -, hwaiter⟩
  · rw [hserver.client_eq]
    exact fun _ => id
  · cases hmain with
    | @answered ρ memorySize b => cases b <;> exact fun _ => id
    | spawn hmain => exact absurd hmain (hsent _)
    | join => exact List.tail_subset _
    | release =>
        simp only [withClient, release, goto]
        exact fun _ => id
    | _ => exact fun _ => id
  · rw [hwaiter.pending_eq]
    exact fun _ => id

theorem Calling.told (h : Calling S timeout s) : s.Told :=
  h.going.run.elim fun _ h' => h'.elim fun _ h'' => h''.elim fun _ hrun =>
    told_of_run hrun.toRun h.going.alive

theorem Calling.moves {l : SystemLabel} (h : Calling S timeout s) (hl : l.isCall = false)
    (hstep : lts.step l s = some s') (halive : s'.server.session ≠ .ended) :
    (s.client.main ≠ .idle ∧ s.Proceeds S timeout s') ∨ s.Unset s' :=
  proceeds_or_unset h.inCall h.going.served.client.book h.going.served.wire h.told hl hstep halive

theorem Calling.step {l : SystemLabel} (h : Calling S timeout s) (hl : Onward l s)
    (hstep : lts.step l s = some s') (halive : s'.server.session ≠ .ended) :
    Calling S timeout s' := by
  have hc := h.going.served.client
  have hcall : InCall S timeout s'.interval s'.client.main := by
    rcases h.moves hl.2 hstep halive with ⟨-, hproceeds⟩ | hunset
    · exact hproceeds.inCall
    · exact hunset.inCall h.inCall
  refine ⟨h.going.trans (.single hl hstep) halive hcall.not_over, hcall, fun r hr => ?_⟩
  have hmem := pending_subset_of_step h.inCall.ne_sent hstep hr
  have hout := h.handsOut r hmem
  rcases step_cases hstep with hserver | ⟨-, hmain⟩ | ⟨-, ρ, t, ht, hwaiter⟩
  · exact hout.keep (by rw [hserver.client_eq]) (by rw [hserver.client_eq])
  · exact hout.mainMoves (hc.book.known r hmem) h.inCall.ne_sent hmain
  · exact hout.waiterMoves h.going.link.receipt ht hwaiter

/-! ### The call returns -/

structure Nearer (s s' : System) : Prop where
  subset : s'.client.pending_transactions ⊆ s.client.pending_transactions
  left_lt : (s'.client.main = s.client.main ∧ s'.client.left = s.client.left)
    ∨ s'.client.left < s.client.left

theorem Nearer.refl (s : System) : s.Nearer s := ⟨fun _ => id, Or.inl ⟨rfl, rfl⟩⟩

theorem Calling.nearer {l : SystemLabel} (h : Calling S timeout s) (hl : Onward l s)
    (hstep : lts.step l s = some s') (halive : s'.server.session ≠ .ended) : s.Nearer s' := by
  refine ⟨pending_subset_of_step h.inCall.ne_sent hstep, ?_⟩
  rcases h.moves hl.2 hstep halive with ⟨-, hproceeds⟩ | hunset
  · exact Or.inr hproceeds.left_lt
  · refine Or.inl ⟨hunset.main_eq, ?_⟩
    rw [left, left, hunset.main_eq, hunset.pending_eq]

theorem Nearer.trans {s'' : System} (h : s.Nearer s') (h' : s'.Nearer s'') : s.Nearer s'' := by
  refine ⟨fun r hr => h.subset (h'.subset hr), ?_⟩
  rcases h.left_lt with ⟨hmain, hleft⟩ | hlt
  · rw [← hmain, ← hleft]
    exact h'.left_lt
  · rcases h'.left_lt with ⟨-, hleft⟩ | hlt'
    · exact Or.inr (by rwa [hleft])
    · exact Or.inr (hlt'.trans hlt)

theorem Calling.run (h : Calling S timeout s) (hrun : lts.RunIf Onward s s')
    (halive : s'.server.session ≠ .ended) : Calling S timeout s' ∧ s.Nearer s' := by
  refine hrun.invariant
    (I := fun s' => s'.server.session ≠ .ended → Calling S timeout s' ∧ s.Nearer s') ?_
    (fun _ => ⟨h, .refl s⟩) halive
  intro l t t' hI hl hstep halive'
  obtain ⟨hcalling, hnearer⟩ := hI (session_ne_of_step hstep halive')
  exact ⟨hcalling.step hl hstep halive', hnearer.trans (hcalling.nearer hl hstep halive')⟩

/-- Behind the call, nothing but a new call sets the interval. -/
theorem Calling.idle_run (h : Calling S timeout s) (hidle : s.client.main = .idle)
    (hrun : lts.RunIf Onward s s') (halive : s'.server.session ≠ .ended) :
    s'.client.main = .idle ∧ s'.interval = s.interval := by
  refine hrun.invariant_of
    (I := fun t => t.server.session ≠ .ended → t.client.main = .idle ∧ t.interval = s.interval)
    (J := fun t => t.server.session ≠ .ended → Calling S timeout t)
    (fun t ht halive => (h.run ht halive).1) ?_ (fun _ => ⟨hidle, rfl⟩) halive
  intro l t t' hJ hI hl hstep halive'
  have halive := session_ne_of_step hstep halive'
  obtain ⟨hidle', hinterval⟩ := hI halive
  rcases (hJ halive).moves hl.2 hstep halive' with ⟨hne, -⟩ | hunset
  · exact absurd hidle' hne
  · exact ⟨hunset.main_eq.trans hidle', hunset.interval_eq.trans hinterval⟩

theorem Calling.exists_taken (h : Calling S timeout s) (hidle : s.client.main = .idle) :
    ∃ s', lts.RunIf Onward s s' ∧ s'.server.session ≠ .ended ∧ s'.client.main = .idle
      ∧ s'.toServer = [] ∧ s'.monitorInterval = s.interval := by
  have hnext : ∀ s', lts.RunIf Onward s s' ∧ s'.Going → s'.toServer ≠ [] →
      ∃ s'', lts.RunIf Onward s' s'' ∧ (lts.RunIf Onward s s'' ∧ s''.Going)
        ∧ s''.load < s'.load := by
    rintro s' ⟨hrun, hgoing⟩ hne
    obtain ⟨s'', hserves⟩ := hgoing.exists_serves (Or.inl hne)
    exact ⟨s'', hserves.run, ⟨hrun.trans hserves.run, hserves.going⟩, hserves.load_lt⟩
  obtain ⟨s', -, ⟨hrun, hgoing⟩, htaken⟩ := Lts.RunIf.exists_of_measure
    (Q := fun s' : System => s'.toServer = []) load hnext ⟨.refl, h.going⟩
  obtain ⟨hidle', hinterval⟩ := h.idle_run hidle hrun hgoing.alive
  refine ⟨s', hrun, hgoing.alive, hidle', htaken, ?_⟩
  rw [← hinterval, interval, htaken]
  rfl

/-! ### It watches over its wait -/

variable {setup : Setup} {graphs : Nat} {monitorInterval : UInt64}

def MainPc.Waited (main : MainPc) : Prop :=
    main.Waits ∨ ∃ t, main = .exchanging (.setTimeOut t) .done

end System

end AieTestHarness
