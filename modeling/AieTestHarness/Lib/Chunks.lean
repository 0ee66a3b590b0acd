import Mathlib.Algebra.Group.Nat.Defs
import Mathlib.Data.List.Basic

/-!
# Reading a stream that arrives in chunks

The other end sends one sequence of bytes; the reads that take it apart get it in chunks of any
size. A reader is a computation over the chunks that are still to come and a state of its own. What
it `Receives` does not depend on the chunks: it returns the value its bytes stand for and takes
exactly these bytes, and on a stream that ends before the last of them it fails.
-/

namespace Chunks

variable {σ ε α β γ : Type}

abbrev Reader (σ β ε α : Type) := StateT (σ × List (List β)) (Except ε) α

/-- No chunk is empty: a read that returns nothing means the stream has ended. -/
def Proper (cs : List (List β)) : Prop := ∀ c ∈ cs, c ≠ []

/-- The reader takes `bytes` for `a`, its state going from `s` to `s'`, and fails with `closed` on a
stream that stops short of them. -/
structure Receives (closed : ε) (d : Reader σ β ε α) (s : σ) (bytes : List β) (a : α) (s' : σ) :
    Prop where
  complete : ∀ cs tail, Proper cs → cs.flatten = bytes ++ tail →
    ∃ cs', d (s, cs) = .ok (a, s', cs') ∧ Proper cs' ∧ cs'.flatten = tail
  short : ∀ cs, Proper cs → cs.flatten <+: bytes → cs.flatten ≠ bytes → d (s, cs) = .error closed

variable {closed : ε} {s s' s'' : σ} {bytes bytes' : List β} {a : α} {b : γ}

theorem Receives.free {d : Reader σ β ε α} (h : ∀ cs, d (s, cs) = .ok (a, s', cs)) :
    Receives closed d s [] a s' where
  complete cs _ hcs hflat := ⟨cs, h cs, hcs, hflat⟩
  short _ _ hpref hne := absurd (List.prefix_nil.mp hpref) hne

theorem Receives.pure (a : α) : Receives closed (Pure.pure a : Reader σ β ε α) s [] a s :=
  .free fun _ => rfl

theorem Receives.bind {d : Reader σ β ε α} {f : α → Reader σ β ε γ}
    (hd : Receives closed d s bytes a s') (hf : Receives closed (f a) s' bytes' b s'') :
    Receives closed (d >>= f) s (bytes ++ bytes') b s'' where
  complete cs tail hcs h := by
    rw [List.append_assoc] at h
    obtain ⟨cs₁, hd₁, hcs₁, h₁⟩ := hd.complete cs _ hcs h
    obtain ⟨cs₂, hf₂, hcs₂, h₂⟩ := hf.complete cs₁ tail hcs₁ h₁
    refine ⟨cs₂, ?_, hcs₂, h₂⟩
    change (d (s, cs) >>= fun r => f r.1 r.2) = _
    rw [hd₁]
    exact hf₂
  short cs hcs h hne := by
    change (d (s, cs) >>= fun r => f r.1 r.2) = _
    by_cases hdone : bytes <+: cs.flatten
    · -- the stream ends in the second part
      obtain ⟨rest, hrest⟩ := hdone
      obtain ⟨cs₁, hd₁, hcs₁, h₁⟩ := hd.complete cs rest hcs hrest.symm
      rw [← hrest] at h hne
      rw [hd₁]
      refine hf.short cs₁ hcs₁ ?_ ?_
      · rw [h₁]
        exact (List.prefix_append_right_inj bytes).mp h
      · rw [h₁]
        exact fun heq => hne (by rw [heq])
    · have hfirst : cs.flatten <+: bytes :=
        (List.prefix_or_prefix_of_prefix h (List.prefix_append bytes bytes')).resolve_right hdone
      have hneq : cs.flatten ≠ bytes := fun heq => hdone (heq ▸ List.prefix_rfl)
      rw [hd.short cs hcs hfirst hneq]
      rfl

theorem Receives.bind_free {d : Reader σ β ε α} {f : α → Reader σ β ε γ}
    (hd : Receives closed d s bytes a s') (hf : ∀ cs, f a (s', cs) = .ok (b, s'', cs)) :
    Receives closed (d >>= f) s bytes b s'' := by
  have hboth := hd.bind (.free hf)
  rwa [List.append_nil] at hboth

theorem Receives.free_bind {d : Reader σ β ε α} {f : α → Reader σ β ε γ}
    (hd : ∀ cs, d (s, cs) = .ok (a, s', cs)) (hf : Receives closed (f a) s' bytes b s'') :
    Receives closed (d >>= f) s bytes b s'' :=
  (Receives.free hd).bind hf

/-! ### Reading a number of bytes -/

/-- `n` bytes more, each read taking what is left of a chunk or as much of it as is asked for. -/
def takeLoop (closed : ε) : Nat → List (List β) → Except ε (List β × List (List β))
  | 0, cs => .ok ([], cs)
  | _ + 1, [] => .error closed
  | n + 1, c :: cs =>
    if c.length = 0 then .error closed
    else if n + 1 < c.length then .ok (c.take (n + 1), c.drop (n + 1) :: cs)
    else do
      let (bytes, cs) ← takeLoop closed (n + 1 - c.length) cs
      return (c ++ bytes, cs)

def take (closed : ε) (n : Nat) : Reader σ β ε (List β) := fun (s, cs) => do
  let (bytes, cs) ← takeLoop closed n cs
  return (bytes, s, cs)

variable (closed) in
theorem takeLoop_complete (bytes : List β) {cs : List (List β)} {tail : List β} (hcs : Proper cs)
    (h : cs.flatten = bytes ++ tail) :
    ∃ cs', takeLoop closed bytes.length cs = .ok (bytes, cs') ∧ Proper cs'
      ∧ cs'.flatten = tail := by
  induction cs generalizing bytes with
  | nil =>
      obtain ⟨rfl, rfl⟩ := List.append_eq_nil_iff.mp h.symm
      exact ⟨[], rfl, hcs, rfl⟩
  | cons c cs ih =>
      have hrest : Proper cs := fun c' hc' => hcs c' (List.mem_cons_of_mem c hc')
      have hc : c.length ≠ 0 := fun hlen =>
        hcs c List.mem_cons_self (List.length_eq_zero_iff.mp hlen)
      rw [List.flatten_cons] at h
      match bytes, h with
      | [], h => exact ⟨c :: cs, rfl, hcs, h⟩
      | x :: xs, h =>
        rw [List.length_cons, takeLoop, if_neg hc]
        by_cases hlong : xs.length + 1 < c.length
        · -- the chunk holds more than is asked for
          obtain ⟨left, hleft, hflat⟩ : ∃ left, c = (x :: xs) ++ left ∧ tail = left
            ++ cs.flatten := by
            rcases List.append_eq_append_iff.mp h with ⟨m, hm, _⟩ | ⟨m, hm, ht⟩
            · have hlen := congrArg List.length hm
              rw [List.length_append, List.length_cons] at hlen
              omega
            · exact ⟨m, hm, ht⟩
          have hpos : left ≠ [] := by
            rintro rfl
            rw [List.append_nil] at hleft
            rw [hleft, List.length_cons] at hlong
            omega
          have htake : c.take (xs.length + 1) = x :: xs := by
            rw [hleft]
            exact List.take_left' rfl
          have hdrop : c.drop (xs.length + 1) = left := by
            rw [hleft]
            exact List.drop_left' rfl
          rw [if_pos hlong, htake, hdrop]
          refine ⟨left :: cs, rfl, ?_, ?_⟩
          · intro c' hc'
            rcases List.mem_cons.mp hc' with rfl | hc'
            · exact hpos
            · exact hrest c' hc'
          · rw [List.flatten_cons, hflat]
        · obtain ⟨more, hmore, hflat⟩ :
              ∃ more, x :: xs = c ++ more ∧ cs.flatten = more ++ tail := by
            rcases List.append_eq_append_iff.mp h with ⟨m, hm, ht⟩ | ⟨m, hm, ht⟩
            · exact ⟨m, hm, ht⟩
            · have hlen := congrArg List.length hm
              rw [List.length_append, List.length_cons] at hlen
              have hm0 : m = [] := List.length_eq_zero_iff.mp (by omega)
              subst hm0
              rw [List.append_nil] at hm
              exact ⟨[], by rw [hm, List.append_nil], by rw [ht]; rfl⟩
          have hlen : xs.length + 1 - c.length = more.length := by
            have hcount := congrArg List.length hmore
            rw [List.length_append, List.length_cons] at hcount
            omega
          obtain ⟨cs', htake, hcs', htail⟩ := ih more hrest hflat
          refine ⟨cs', ?_, hcs', htail⟩
          rw [if_neg hlong, hlen, htake, hmore]
          rfl

theorem takeLoop_short {n : Nat} {cs : List (List β)} (hcs : Proper cs)
    (h : cs.flatten.length < n) :
    takeLoop closed n cs = .error closed := by
  induction cs generalizing n with
  | nil =>
      cases n with
      | zero => simp at h
      | succ n => rfl
  | cons c cs ih =>
      have hc : c.length ≠ 0 := fun hlen =>
        hcs c List.mem_cons_self (List.length_eq_zero_iff.mp hlen)
      rw [List.flatten_cons, List.length_append] at h
      cases n with
      | zero => omega
      | succ n =>
          rw [takeLoop, if_neg hc, if_neg (by omega),
            ih (fun c' hc' => hcs c' (List.mem_cons_of_mem c hc')) (by omega)]
          rfl

theorem Receives.take (bytes : List β) :
    Receives closed (take closed bytes.length : Reader σ β ε (List β)) s bytes bytes s where
  complete cs tail hcs h := by
    obtain ⟨cs', hloop, hcs', htail⟩ := takeLoop_complete closed bytes hcs h
    refine ⟨cs', ?_, hcs', htail⟩
    change (takeLoop closed bytes.length cs >>= fun r => _) = _
    rw [hloop]
    rfl
  short cs hcs h hne := by
    have hlen : cs.flatten.length < bytes.length :=
      Nat.lt_of_le_of_ne h.length_le fun heq => hne (h.eq_of_length heq)
    change (takeLoop closed bytes.length cs >>= fun r => _) = _
    rw [takeLoop_short hcs hlen]
    rfl

/-! ### Reading a value several times -/

def readEach (read : α → Reader σ β ε γ) : List α → Reader σ β ε (List γ)
  | [] => Pure.pure []
  | a :: as => do
    let c ← read a
    let cs ← readEach read as
    return c :: cs

/-- Each pass takes the bytes of its item; the state may change from one pass to the next. -/
theorem Receives.readEach {ι : Type} {read : α → Reader σ β ε γ} (I : σ → Prop) (arg : ι → α)
    (bytes : ι → List β) (res : ι → γ) (next : ι → σ → σ) {items : List ι}
    (hread : ∀ i ∈ items, ∀ s, I s →
      Receives closed (read (arg i)) s (bytes i) (res i) (next i s) ∧ I (next i s)) (hs : I s) :
    Receives closed (readEach read (items.map arg)) s (items.flatMap bytes) (items.map res)
      (items.foldl (fun s i => next i s) s) := by
  induction items generalizing s with
  | nil => exact .pure []
  | cons i items ih =>
      obtain ⟨hfirst, hs'⟩ := hread i List.mem_cons_self s hs
      have hrest := ih (fun j hj => hread j (List.mem_cons_of_mem i hj)) hs'
      exact hfirst.bind (hrest.bind_free fun _ => rfl)

/-! ### What a reader has taken -/

/-- From `s`, a reader that returns has taken bytes off the stream that `P` relates to its value and
the state it leaves. -/
def Takes (d : Reader σ β ε α) (s : σ) (P : List β → α → σ → Prop) : Prop :=
  ∀ cs a s' cs', Proper cs → d (s, cs) = .ok (a, s', cs') →
    ∃ bytes, cs.flatten = bytes ++ cs'.flatten ∧ Proper cs' ∧ P bytes a s'

section Takes

variable {d : Reader σ β ε α} {f : α → Reader σ β ε γ} {P : List β → α → σ → Prop}
  {R : List β → γ → σ → Prop}

theorem Takes.free (h : ∀ cs a s' cs', d (s, cs) = .ok (a, s', cs') → cs' = cs ∧ P [] a s') :
    Takes d s P := by
  intro cs a s' cs' hcs hok
  obtain ⟨rfl, hP⟩ := h cs a s' cs' hok
  exact ⟨[], rfl, hcs, hP⟩

theorem Takes.pure {a : α} (h : P [] a s) : Takes (Pure.pure a : Reader σ β ε α) s P := by
  refine .free fun cs b s' cs' hok => ?_
  cases hok
  exact ⟨rfl, h⟩

theorem Takes.last {bytes : List β} {c : γ} (h : R bytes c s) :
    Takes (Pure.pure c : Reader σ β ε γ) s fun bytes' c s' => R (bytes ++ bytes') c s' := by
  refine .pure ?_
  rwa [List.append_nil]

theorem Takes.bind (hd : Takes d s P)
    (hf : ∀ bytes a s', P bytes a s' → Takes (f a) s' fun bytes' c s'' =>
    R (bytes ++ bytes') c s'') :
    Takes (d >>= f) s R := by
  intro cs c s'' cs'' hcs hok
  change (d (s, cs) >>= fun r => f r.1 r.2) = _ at hok
  cases hfirst : d (s, cs) with
  | error e =>
      rw [hfirst] at hok
      cases hok
  | ok r =>
      obtain ⟨a, s', cs'⟩ := r
      rw [hfirst] at hok
      obtain ⟨bytes₁, hflat₁, hcs', hP⟩ := hd cs a s' cs' hcs hfirst
      obtain ⟨bytes₂, hflat₂, hcs'', hR⟩ := hf bytes₁ a s' hP cs' c s'' cs'' hcs' hok
      refine ⟨bytes₁ ++ bytes₂, ?_, hcs'', hR⟩
      rw [hflat₁, hflat₂, List.append_assoc]

theorem takeLoop_takes {closed : ε} {n : Nat} {cs cs' : List (List β)} {bytes : List β}
    (hcs : Proper cs) (h : takeLoop closed n cs = .ok (bytes, cs')) :
    cs.flatten = bytes ++ cs'.flatten ∧ Proper cs' ∧ bytes.length = n := by
  -- a stream that is too short is an error, and the others are known
  by_cases hlen : n ≤ cs.flatten.length
  · obtain ⟨cs₁, hloop, hcs₁, hflat⟩ := takeLoop_complete closed (cs.flatten.take n) hcs
      (List.take_append_drop n cs.flatten).symm
    rw [List.length_take_of_le hlen, h] at hloop
    cases hloop
    exact ⟨by rw [hflat, List.take_append_drop], hcs₁, List.length_take_of_le hlen⟩
  · rw [takeLoop_short hcs (Nat.lt_of_not_le hlen)] at h
    cases h

theorem Takes.take {closed : ε} {n : Nat} {P : List β → List β → σ → Prop}
    (h : ∀ bytes : List β, bytes.length = n → P bytes bytes s) :
    Takes (take closed n : Reader σ β ε (List β)) s P := by
  intro cs a s' cs' hcs hok
  change (takeLoop closed n cs >>= fun r => _) = _ at hok
  cases hloop : takeLoop closed n cs with
  | error e =>
      rw [hloop] at hok
      cases hok
  | ok r =>
      rw [hloop] at hok
      cases hok
      obtain ⟨hflat, hcs', hlen⟩ := takeLoop_takes hcs hloop
      exact ⟨r.1, hflat, hcs', h r.1 hlen⟩

/-- The passes of a loop: `Q` holds of no pass, and each pass adds to it in front. -/
theorem Takes.readEach (read : α → Reader σ β ε γ) {P : σ → List β → γ → σ → Prop}
    (Q : σ → List β → List γ → σ → Prop) (hnil : ∀ s, Q s [] [] s)
    (hcons : ∀ {s s' s'' bytes bytes' c cs}, P s bytes c s' → Q s' bytes' cs s'' →
      Q s (bytes ++ bytes') (c :: cs) s'')
    (as : List α) (hread : ∀ a ∈ as, ∀ s, Takes (read a) s (P s)) (s : σ) :
    Takes (readEach read as) s fun bytes cs s' => cs.length = as.length ∧ Q s bytes cs s' := by
  induction as generalizing s with
  | nil => exact .pure ⟨rfl, hnil s⟩
  | cons a as ih =>
      have hrest := ih fun b hb => hread b (List.mem_cons_of_mem a hb)
      refine (hread a List.mem_cons_self s).bind fun bytes c s' hP =>
        (hrest s').bind fun bytes' cs s'' hQ => .pure ?_
      rw [List.append_nil]
      exact ⟨congrArg (· + 1) hQ.1, hcons hP hQ.2⟩

end Takes

/-! ### Numbers in a stream -/

/-- The last `width` bytes of a number, the lowest first. -/
def leBytes : Nat → Nat → List UInt8
  | 0, _ => []
  | width + 1, n => UInt8.ofNat n :: leBytes width (n / 256)

def leNat : List UInt8 → Nat
  | [] => 0
  | b :: bs => b.toNat + 256 * leNat bs

@[simp]
theorem length_leBytes (width n : Nat) : (leBytes width n).length = width := by
  induction width generalizing n with
  | zero => rfl
  | succ width ih => rw [leBytes, List.length_cons, ih]

theorem leNat_leBytes {width n : Nat} (h : n < 256 ^ width) : leNat (leBytes width n) = n := by
  induction width generalizing n with
  | zero =>
      have hzero : n = 0 := by simpa using h
      rw [hzero]
      rfl
  | succ width ih =>
      have hdiv : n / 256 < 256 ^ width := by
        rw [Nat.div_lt_iff_lt_mul (by decide)]
        rwa [Nat.pow_succ] at h
      rw [leBytes, leNat, ih hdiv, UInt8.toNat_ofNat']
      omega

end Chunks
