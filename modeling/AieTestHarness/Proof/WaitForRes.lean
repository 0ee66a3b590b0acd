import AieTestHarness.Client.WaitForRes
import AieTestHarness.Proof.Client

/-!
# Which transactions `waitForRes` waits for

The loop joins the right threads as long as a popped slot still holds what was in it, but nothing
says that it does: the first pass already uses the loop variable behind the pop.
-/

namespace AieTestHarness

namespace WaitLoop

variable {s : WaitLoop} {pending threads : List Ref} {timeout num_trans : UInt32}

def count (num_trans : UInt32) (m : Nat) : Nat :=
  if num_trans = 0 then m else min num_trans.toNat m

structure Waited (pending threads : List Ref) (timeout num_trans : UInt32) (s : WaitLoop) :
    Prop where
  joined_eq : s.joined = pending.take (count num_trans pending.length)
  timed_eq : s.timed = s.joined.map (·, timeout)
  pending_eq : s.pending_transactions.toList = pending.drop (count num_trans pending.length)
  threads_eq : s.transaction_threads = threads.filter (· ∉ s.joined)
  keys_eq : ∀ r, r ∈ s.transaction_threads ↔ r ∈ s.pending_transactions.toList
  graphs_iff : s.graphs = true ↔ num_trans = 0

structure WaitedRight (pending threads : List Ref) (timeout num_trans : UInt32) (s : WaitLoop) :
    Prop where
  waited : Waited pending threads timeout num_trans s
  valid : ∀ b ∈ s.uses, b = true

/-! ### The uses of the loop variable -/

theorem loop_succ (left it : Nat) :
    loop timeout (left + 1) it s = if (s.pass timeout it).all = 0 then s.pass timeout it
      else loop timeout left (it + 1) ((s.pass timeout it).use it) :=
  rfl

theorem mem_uses_loop {b : Bool} (left it : Nat) (h : b ∈ s.uses) :
    b ∈ (loop timeout left it s).uses := by
  induction left generalizing it s with
  | zero => exact h
  | succ left ih =>
      have hpass : b ∈ (s.pass timeout it).uses := by
        simp only [pass, erase, pop_front, join, setTimeOut, use, List.mem_append]
        exact Or.inl (Or.inl (Or.inl h))
      rw [loop_succ]
      split
      · exact hpass
      · exact ih (it + 1) (List.mem_append_left _ hpass)

/-- Behind the pop, the reference to the front is used once more. -/
theorem not_valid_of_pass (it : Nat) (hpopped : s.pending_transactions.popped = it) :
    false ∈ (s.pass timeout it).uses := by
  have hinvalid : ¬ s.pending_transactions.pop_front.Valid it := by
    rintro ⟨hle, -⟩
    rw [← hpopped] at hle
    exact Nat.not_succ_le_self _ hle
  simp only [pass, erase, pop_front, join, setTimeOut, use, List.mem_append, List.mem_singleton]
  exact Or.inr (decide_eq_false hinvalid).symm

theorem not_valid_of_ne_nil (h : pending ≠ []) :
    false ∈ (waitForRes pending threads timeout num_trans).uses := by
  obtain ⟨r, rest, rfl⟩ := List.exists_cons_of_ne_nil h
  let s₀ := start (r :: rest) threads num_trans
  have hpass : false ∈ (s₀.pass timeout 0).uses := not_valid_of_pass 0 rfl
  have hloop : false ∈ (loop timeout (r :: rest).length 0 s₀).uses := by
    rw [List.length_cons, loop_succ]
    split
    · exact hpass
    · apply mem_uses_loop
      exact List.mem_append_left _ hpass
  unfold waitForRes
  split
  · exact hloop
  · exact hloop

/-! ### The transactions waited for -/

theorem count_one {left : Nat} : count 1 (left + 1) = 1 := by
  simp [count]

theorem count_succ {n : UInt32} {left : Nat} (hne : n - 1 ≠ 0) (hle : left + 1 ≤ 2 ^ 32) :
    count n (left + 1) = count (n - 1) left + 1 := by
  unfold count
  rw [if_neg hne]
  by_cases hzero : n = 0
  · subst hzero
    have hwrap : ((0 : UInt32) - 1).toNat = 2 ^ 32 - 1 := rfl
    rw [if_pos rfl, hwrap]
    omega
  · have hpos : 0 < n.toNat := Nat.pos_of_ne_zero fun h => hzero (UInt32.toNat_inj.mp h)
    have hone : (1 : UInt32) ≤ n := UInt32.le_iff_toNat_le.mpr hpos
    have hpred : (n - 1).toNat = n.toNat - 1 := UInt32.toNat_sub_of_le _ _ hone
    rw [if_neg hzero, hpred]
    omega

structure Passed (s : WaitLoop) (rs : List Ref) (timeout : UInt32) (s' : WaitLoop) : Prop where
  slots_eq : s'.pending_transactions.slots = s.pending_transactions.slots
  popped_eq : s'.pending_transactions.popped = s.pending_transactions.popped + rs.length
  threads_eq : s'.transaction_threads = s.transaction_threads.diff rs
  timed_eq : s'.timed = s.timed ++ rs.map (·, timeout)
  joined_eq : s'.joined = s.joined ++ rs
  graphs_eq : s'.graphs = s.graphs

theorem passed_pass (s : WaitLoop) (timeout : UInt32) (it : Nat) :
    Passed s [s.slot it] timeout (s.pass timeout it) :=
  ⟨rfl, rfl, by rw [List.diff_cons, List.diff_nil]; rfl, rfl, rfl, rfl⟩

theorem Passed.cons {s₁ s' : WaitLoop} {r : Ref} {rs : List Ref} (h : Passed s [r] timeout s₁)
    (h' : Passed s₁ rs timeout s') : Passed s (r :: rs) timeout s' where
  slots_eq := h'.slots_eq.trans h.slots_eq
  popped_eq := by
    rw [h'.popped_eq, h.popped_eq]
    exact Nat.add_right_comm _ 1 rs.length
  threads_eq := by rw [h'.threads_eq, h.threads_eq, List.diff_cons, List.diff_cons, List.diff_nil]
  timed_eq := by rw [h'.timed_eq, h.timed_eq, List.append_assoc]; rfl
  joined_eq := by rw [h'.joined_eq, h.joined_eq, List.append_assoc]; rfl
  graphs_eq := h'.graphs_eq.trans h.graphs_eq

theorem passed_loop (front rest : List Ref) (hslots : s.pending_transactions.slots = front ++ rest)
    (hle : rest.length ≤ 2 ^ 32) :
    Passed s (rest.take (count s.all rest.length)) timeout
      (loop timeout rest.length front.length s) := by
  induction rest generalizing s front with
  | nil =>
      rw [List.take_nil]
      exact ⟨rfl, rfl, (List.diff_nil _).symm, (List.append_nil _).symm,
        (List.append_nil _).symm, rfl⟩
  | cons r rest ih =>
      have hslot : s.slot front.length = r := by
        rw [slot, hslots]
        simp
      have hpass := passed_pass s timeout front.length
      rw [hslot] at hpass
      have hall : (s.pass timeout front.length).all = s.all - 1 := rfl
      rw [List.length_cons, loop_succ, hall]
      split
      · rename_i hlast
        have hone : s.all = 1 := by
          calc
            s.all = s.all - 1 + 1 := (UInt32.sub_add_cancel _ _).symm
            _ = 1 := by rw [hlast, UInt32.zero_add]
        rw [hone, count_one, List.take_succ_cons, List.take_zero]
        exact hpass
      · rename_i hmore
        have hnext := ih (s := (s.pass timeout front.length).use front.length) (front ++ [r])
          (by rw [show ((s.pass timeout front.length).use front.length).pending_transactions.slots
              = s.pending_transactions.slots from rfl, hslots]; simp)
          (by rw [List.length_cons] at hle; omega)
        rw [List.length_append, List.length_singleton] at hnext
        rw [count_succ hmore (by rw [List.length_cons] at hle; omega), List.take_succ_cons]
        exact hpass.cons ⟨hnext.slots_eq, hnext.popped_eq, hnext.threads_eq, hnext.timed_eq,
          hnext.joined_eq, hnext.graphs_eq⟩

theorem count_le (num_trans : UInt32) (m : Nat) : count num_trans m ≤ m := by
  unfold count
  split <;> omega

/-- A popped slot keeping its content, the call waits for the right transactions. -/
theorem waited_of_nodup (hnodup : pending.Nodup) (hthreads : threads.Nodup)
    (hkeys : ∀ r, r ∈ threads ↔ r ∈ pending) (hle : pending.length ≤ 2 ^ 32) :
    Waited pending threads timeout num_trans (waitForRes pending threads timeout num_trans) := by
  let s₀ := start pending threads num_trans
  have hpassed : Passed s₀ (pending.take (count num_trans pending.length)) timeout
      (loop timeout pending.length 0 s₀) :=
    passed_loop [] pending rfl hle
  let k := count num_trans pending.length
  have hjoined : (loop timeout pending.length 0 s₀).joined = pending.take k := hpassed.joined_eq
  have hlist : (loop timeout pending.length 0 s₀).pending_transactions.toList = pending.drop k := by
    unfold PoppedDeque.toList
    rw [hpassed.slots_eq, hpassed.popped_eq, List.length_take_of_le (count_le ..)]
    exact congrArg (fun j => pending.drop j) (Nat.zero_add k)
  have hfilter : (loop timeout pending.length 0 s₀).transaction_threads
      = threads.filter (· ∉ pending.take k) := by
    rw [hpassed.threads_eq]
    exact hthreads.sdiff_eq_filter
  have hdisjoint := hnodup
  rw [← List.take_append_drop k pending, List.nodup_append] at hdisjoint
  have hloop : ∀ graphs, (graphs = true ↔ num_trans = 0) → Waited pending threads timeout num_trans
      { loop timeout pending.length 0 s₀ with graphs } := by
    intro graphs hgraphs
    refine ⟨hjoined, ?_, hlist, by rw [hfilter, ← hjoined], fun r => ?_, hgraphs⟩
    · exact hpassed.timed_eq.trans (by rw [hjoined]; rfl)
    · show r ∈ (loop timeout pending.length 0 s₀).transaction_threads
        ↔ r ∈ (loop timeout pending.length 0 s₀).pending_transactions.toList
      rw [hfilter, hlist, List.mem_filter, hkeys r, decide_eq_true_iff]
      constructor
      · rintro ⟨hmem, hnot⟩
        rw [← List.take_append_drop k pending, List.mem_append] at hmem
        exact hmem.resolve_left hnot
      · intro hdrop
        exact ⟨List.mem_of_mem_drop hdrop, fun htake => hdisjoint.2.2 r htake r hdrop rfl⟩
  unfold waitForRes
  split
  · rename_i hzero
    exact hloop true (iff_of_true rfl hzero)
  · rename_i hne
    have hgraphs : (loop timeout pending.length 0 s₀).graphs = false := hpassed.graphs_eq
    have hwaited := hloop false (iff_of_false Bool.false_ne_true hne)
    rw [← hgraphs] at hwaited
    exact hwaited

/-- The client keeps its books so that the call can do this. -/
theorem waited_of_book {c : MgrClient} (hbook : c.Book)
    (hle : c.pending_transactions.length ≤ 2 ^ 32) :
    Waited c.pending_transactions c.transaction_threads timeout num_trans
      (waitForRes c.pending_transactions c.transaction_threads timeout num_trans) := by
  rw [hbook.threads_eq]
  exact waited_of_nodup hbook.nodup hbook.nodup (fun _ => Iff.rfl) hle

/-- The call does what is asked of it only where there is nothing to wait for. The rest is as it
should be, a popped slot keeping its content and the keys of the threads being the pending
transactions. -/
theorem waitedRight_iff (pending threads : List Ref) (timeout num_trans : UInt32)
    (hnodup : pending.Nodup) (hthreads : threads.Nodup) (hkeys : ∀ r, r ∈ threads ↔ r ∈ pending) :
    (WaitedRight pending threads timeout num_trans (waitForRes pending threads timeout num_trans)
      ↔ pending = [])
    ∧ (pending.length ≤ 2 ^ 32 →
      Waited pending threads timeout num_trans (waitForRes pending threads timeout num_trans)) := by
  refine ⟨⟨fun h => ?_, ?_⟩, waited_of_nodup hnodup hthreads hkeys⟩
  · by_contra hne
    exact absurd (h.valid false (not_valid_of_ne_nil hne)) Bool.false_ne_true
  · rintro rfl
    refine ⟨waited_of_nodup hnodup hthreads hkeys (Nat.zero_le _), ?_⟩
    unfold waitForRes
    split <;> simp [loop, start]

theorem waitedRight_iff_pair :
    (WaitedRight [0, 1] [1, 0] 1000 1 (waitForRes [0, 1] [1, 0] 1000 1) ↔ [0, 1] = ([] : List Ref))
    ∧ ([0, 1].length ≤ 2 ^ 32 →
      Waited [0, 1] [1, 0] 1000 1 (waitForRes [0, 1] [1, 0] 1000 1)) :=
  waitedRight_iff [0, 1] [1, 0] 1000 1 (by decide) (by decide) fun r => by
    simp only [List.mem_cons, List.not_mem_nil, or_false]
    exact or_comm

/-- One pending transaction, and all of them waited for. -/
theorem not_waitedRight : ¬ ∀ (pending threads : List Ref) (timeout num_trans : UInt32),
    pending.Nodup → threads.Nodup → (∀ r, r ∈ threads ↔ r ∈ pending) →
    WaitedRight pending threads timeout num_trans
      (waitForRes pending threads timeout num_trans) := by
  intro hall
  have hright := hall [0] [0] 1000 0 (by decide) (by decide) fun _ => Iff.rfl
  exact absurd (hright.valid false (not_valid_of_ne_nil (List.cons_ne_nil 0 []))) Bool.false_ne_true

end WaitLoop

end AieTestHarness
