import AieTestHarness.Client.Address
import Mathlib.Data.List.TakeWhile
import Mathlib.Data.UInt

/-!
# Which addresses a client accepts

A part of an address passes when `std::stoi` reads a number of the right size from its beginning, so
blanks, signs and whatever follows the digits pass as well. A part from which it reads none ends the
constructor with an exception of the library.
-/

namespace AieTestHarness

namespace Address

variable {s ip w : List UInt8} {parts : List (List UInt8)} {count : Nat}

/-! ### What an address is -/

def Decimal (w : List UInt8) : Prop := w ≠ [] ∧ ∀ b ∈ w, isDigit b

/-- `s` is `ip`, a colon and the port `p`; `ip` is four numbers of a byte with periods between
them. -/
def IsAddress (s ip : List UInt8) (p : Nat) : Prop :=
  ∃ a b c d port, (∀ w ∈ [a, b, c, d], Decimal w ∧ value w ≤ 255)
    ∧ ip = [period].intercalate [a, b, c, d] ∧ s = ip ++ colon :: port
    ∧ Decimal port ∧ value port = p ∧ 1 ≤ p ∧ p ≤ 65535

structure AddressOk (s : List UInt8) : Prop where
  accepts : (∃ ip port, testHarnessClient s = .ok (ip, port)) ↔ ∃ ip p, IsAddress s ip p
  value : ∀ ip port, testHarnessClient s = .ok (ip, port) → IsAddress s ip port.toNat
  throws : ∀ e, testHarnessClient s = .error e → ∃ message,
    e = .exn (.socket .INVALID_IP_ADDRESS message) ∨ e = .exn (.socket .INVALID_PORT_NUMBER message)

/-! ### `std::stoi` -/

theorem head_of_digit {b : UInt8} (hb : isDigit b) : isSpace b = false ∧ b ≠ 43 ∧ b ≠ 45 := by
  simp only [isDigit, decide_eq_true_eq, UInt8.le_iff_toNat_le] at hb
  refine ⟨decide_eq_false ?_, ?_, ?_⟩
  · rw [← UInt8.toNat_inj, UInt8.le_iff_toNat_le, UInt8.le_iff_toNat_le]
    simp at hb ⊢
    omega
  · rintro rfl
    simp at hb
  · rintro rfl
    simp at hb

theorem sign_of_digit {b : UInt8} (hb : isDigit b) (w : List UInt8) :
    sign (b :: w) = (false, b :: w) := by
  obtain ⟨-, hplus, hminus⟩ := head_of_digit hb
  unfold sign
  split
  · rename_i h
    exact absurd (List.cons.inj h).1 hplus
  · rename_i h
    exact absurd (List.cons.inj h).1 hminus
  · rfl

theorem stoi_of_decimal (h : Decimal w) (hlt : value w < 2 ^ 31) : stoi w = .ok (value w) := by
  obtain ⟨hne, hdigits⟩ := h
  cases w with
  | nil => exact absurd rfl hne
  | cons b w =>
      have hb : isDigit b := hdigits b List.mem_cons_self
      have hspace : (b :: w).dropWhile isSpace = b :: w :=
        List.dropWhile_cons_of_neg (by rw [(head_of_digit hb).1]; simp)
      have htake : (b :: w).takeWhile isDigit = b :: w :=
        List.takeWhile_eq_self_iff.mpr hdigits
      simp only [stoi, hspace, sign_of_digit hb, htake, reduceCtorEq, if_false, Bool.false_eq_true]
      exact if_pos (by omega)

theorem toInt_error {n : Int} {e : AddressFault} (h : toInt n = .error e) : e = .out_of_range := by
  unfold toInt at h
  split at h
  · cases h
  · exact (Except.error.inj h).symm

theorem stoi_error {e : AddressFault} (h : stoi w = .error e) :
    e = .invalid_argument ∨ e = .out_of_range := by
  simp only [stoi] at h
  split at h
  · exact Or.inl (Except.error.inj h).symm
  · exact Or.inr (toInt_error h)

/-! ### The parts -/

/-- The part begins, as `std::stoi` sees it, with a number of a byte. -/
def Passes (w : List UInt8) : Prop := ∃ n, stoi w = .ok n ∧ 0 ≤ n ∧ n ≤ 255

def Fails (w : List UInt8) : Prop := w = [] ∨ ∃ n, stoi w = .ok n ∧ (n < 0 ∨ n > 255)

/-- Parts that pass are followed by one that fails, or by a last one that is not the fourth. -/
def PartsRefused (parts : List (List UInt8)) (count : Nat) : Prop :=
  ∃ front part back, parts = front ++ part :: back ∧ (∀ w ∈ front, Passes w)
    ∧ (Fails part ∨ back = [] ∧ count + front.length ≠ 3)

theorem Passes.ne_nil (h : Passes w) : w ≠ [] := by
  rintro rfl
  obtain ⟨n, hn, -⟩ := h
  cases hn

theorem Passes.not_fails (h : Passes w) : ¬ Fails w := by
  rintro (hnil | ⟨n, hn, hout⟩)
  · exact h.ne_nil hnil
  · obtain ⟨n', hn', hin⟩ := h
    rw [hn] at hn'
    cases hn'
    omega

theorem passes_cases (w : List UInt8) :
    Passes w ∨ Fails w ∨ w ≠ [] ∧ ∃ e, stoi w = .error e := by
  by_cases hnil : w = []
  · exact Or.inr (Or.inl (Or.inl hnil))
  · cases hstoi : stoi w with
    | error e => exact Or.inr (Or.inr ⟨hnil, e, rfl⟩)
    | ok n =>
        by_cases hin : 0 ≤ n ∧ n ≤ 255
        · exact Or.inl ⟨n, hstoi, hin⟩
        · exact Or.inr (Or.inl (Or.inr ⟨n, hstoi, by omega⟩))

theorem partsRefused_cons (hw : Passes w) (hrest : parts ≠ []) :
    PartsRefused (w :: parts) count ↔ PartsRefused parts (count + 1) := by
  constructor
  · rintro ⟨front, part, back, heq, hfront, hlast⟩
    cases front with
    | nil =>
        obtain ⟨rfl, rfl⟩ := List.cons.inj heq
        rcases hlast with hfails | ⟨hback, -⟩
        · exact absurd hfails hw.not_fails
        · exact absurd hback hrest
    | cons x front =>
        obtain ⟨rfl, rfl⟩ := List.cons.inj heq
        refine ⟨front, part, back, rfl, fun y hy => hfront y (List.mem_cons_of_mem _ hy), ?_⟩
        rw [List.length_cons] at hlast
        exact hlast.imp_right fun h => ⟨h.1, by omega⟩
  · rintro ⟨front, part, back, rfl, hfront, hlast⟩
    refine ⟨w :: front, part, back, rfl, ?_, ?_⟩
    · intro y hy
      rcases List.mem_cons.mp hy with rfl | hy
      · exact hw
      · exact hfront y hy
    · rw [List.length_cons]
      exact hlast.imp_right fun h => ⟨h.1, by omega⟩

theorem not_partsRefused (hpass : ∀ w ∈ parts, Passes w) (hlen : count + parts.length = 4) :
    ¬ PartsRefused parts count := by
  rintro ⟨front, part, back, rfl, -, hfails | ⟨rfl, hcount⟩⟩
  · exact (hpass part (by simp)).not_fails hfails
  · rw [List.length_append, List.length_singleton] at hlen
    omega

inductive PartsEnd (parts : List (List UInt8)) (count : Nat) : Except AddressFault Bool → Prop where
  | valid (hpass : ∀ w ∈ parts, Passes w) (hcount : count + parts.length = 4) :
      PartsEnd parts count (.ok true)
  | refused (h : PartsRefused parts count) : PartsEnd parts count (.ok false)
  | throws {e : AddressFault} (he : e = .invalid_argument ∨ e = .out_of_range)
      (hrefused : ¬ PartsRefused parts count) (hnot : ∃ w ∈ parts, ¬ Passes w) :
      PartsEnd parts count (.error e)

theorem not_passes {e : AddressFault} (h : stoi w = .error e) : ¬ Passes w := by
  rintro ⟨n, hn, -⟩
  rw [h] at hn
  cases hn

/-- Where a part is no number, the parts before it decide. -/
theorem not_partsRefused_of_error {e : AddressFault} (hnil : w ≠ []) (h : stoi w = .error e)
    (hlast : parts = [] → count = 3) : ¬ PartsRefused (w :: parts) count := by
  rintro ⟨front, part, back, heq, hfront, hcase⟩
  cases front with
  | nil =>
      obtain ⟨rfl, rfl⟩ := List.cons.inj heq
      rcases hcase with (hempty | ⟨n, hn, -⟩) | ⟨hback, hcount⟩
      · exact hnil hempty
      · rw [h] at hn
        cases hn
      · exact hcount (hlast hback)
  | cons x front =>
      obtain ⟨rfl, -⟩ := List.cons.inj heq
      exact not_passes h (hfront w List.mem_cons_self)

theorem bind_stoi_error {e : AddressFault} (h : stoi w = .error e)
    (k : Int → Except AddressFault Bool) : stoi w >>= k = .error e := by
  rw [h]
  rfl

theorem partsEnd_last (w : List UInt8) (count : Nat) :
    PartsEnd [w] count (isValidParts [w] count) := by
  have hrefused : Fails w ∨ count ≠ 3 → PartsRefused [w] count := fun h =>
    ⟨[], w, [], rfl, by simp, h.imp_right fun hcount => ⟨rfl, hcount⟩⟩
  unfold isValidParts
  by_cases hcount : count ≠ 3
  · rw [if_pos hcount]
    exact .refused (hrefused (Or.inr hcount))
  · rw [if_neg hcount]
    rcases passes_cases w with hpass | hfails | ⟨hnil, e, herror⟩
    · rw [if_neg hpass.ne_nil]
      obtain ⟨n, hn, hin⟩ := hpass
      rw [hn]
      show PartsEnd [w] count (.ok (!decide (n < 0 ∨ n > 255)))
      rw [decide_eq_false (by omega)]
      refine .valid (fun x hx => ?_) (by simp at hcount ⊢; omega)
      rw [List.mem_singleton.mp hx]
      exact ⟨n, hn, hin⟩
    · have hall := hrefused (Or.inl hfails)
      rcases hfails with hnil | ⟨n, hn, hout⟩
      · rw [if_pos hnil]
        exact .refused hall
      · split
        · exact .refused hall
        · rw [hn]
          show PartsEnd [w] count (.ok (!decide (n < 0 ∨ n > 255)))
          rw [decide_eq_true hout]
          exact .refused hall
    · rw [if_neg hnil, bind_stoi_error herror]
      exact .throws (stoi_error herror)
        (not_partsRefused_of_error hnil herror fun _ => not_not.mp hcount)
        ⟨w, by simp, not_passes herror⟩

theorem partsEnd (hne : parts ≠ []) (count : Nat) :
    PartsEnd parts count (isValidParts parts count) := by
  induction parts generalizing count with
  | nil => exact absurd rfl hne
  | cons w rest ih =>
      cases rest with
      | nil => exact partsEnd_last w count
      | cons x rest =>
          have hrefused : Fails w → PartsRefused (w :: x :: rest) count := fun h =>
            ⟨[], w, x :: rest, rfl, by simp, Or.inl h⟩
          unfold isValidParts
          rcases passes_cases w with hpass | hfails | ⟨hnil, e, herror⟩
          · have hend := ih (by simp) (count + 1)
            have hrest : PartsRefused (w :: x :: rest) count
              ↔ PartsRefused (x :: rest) (count + 1) :=
              partsRefused_cons hpass (List.cons_ne_nil x rest)
            rw [if_neg hpass.ne_nil]
            obtain ⟨n, hn, hin⟩ := hpass
            rw [hn]
            show PartsEnd _ count (if n < 0 ∨ n > 255 then .ok false
              else isValidParts (x :: rest) (count + 1))
            rw [if_neg (by omega)]
            generalize isValidParts (x :: rest) (count + 1) = result at hend
            cases hend with
            | valid hall hcount =>
                refine .valid (fun y hy => ?_) (by simp only [List.length_cons] at hcount ⊢; omega)
                rcases List.mem_cons.mp hy with rfl | hy
                · exact ⟨n, hn, hin⟩
                · exact hall y hy
            | refused h => exact .refused (hrest.mpr h)
            | throws he hrefused' hnot =>
                obtain ⟨y, hy, hnot⟩ := hnot
                exact .throws he (fun h => hrefused' (hrest.mp h))
                  ⟨y, List.mem_cons_of_mem w hy, hnot⟩
          · have hall := hrefused hfails
            rcases hfails with hnil | ⟨n, hn, hout⟩
            · rw [if_pos hnil]
              exact .refused hall
            · split
              · exact .refused hall
              · rw [hn]
                show PartsEnd _ count (if n < 0 ∨ n > 255 then .ok false
                  else isValidParts (x :: rest) (count + 1))
                rw [if_pos hout]
                exact .refused hall
          · rw [if_neg hnil, bind_stoi_error herror]
            exact .throws (stoi_error herror)
              (not_partsRefused_of_error hnil herror fun h => absurd h (by simp))
              ⟨w, by simp, not_passes herror⟩

/-! ### The constructor -/

/-- The constructor refuses the string: one of the four parts fails, or all pass and no number
follows the colon. -/
def Refused (s : List UInt8) : Prop :=
  PartsRefused ((ipPart s).splitOn period) 0
    ∨ ((∀ w ∈ (ipPart s).splitOn period, Passes w) ∧ ((ipPart s).splitOn period).length = 4
      ∧ ∀ n, stoi (portPart s) ≠ .ok n)

inductive ClientEnd (s : List UInt8) : Except AddressFault (List UInt8 × UInt16) → Prop where
  | connects {n : Int} (hpass : ∀ w ∈ (ipPart s).splitOn period, Passes w)
      (hlen : ((ipPart s).splitOn period).length = 4) (hport : stoi (portPart s) = .ok n) :
      ClientEnd s (.ok (ipPart s, narrow n))
  | refused {status : SocketStatus} {message : String} (h : Refused s)
      (hstatus : status = .INVALID_IP_ADDRESS ∨ status = .INVALID_PORT_NUMBER) :
      ClientEnd s (.error (.exn (.socket status message)))
  | throws {e : AddressFault} (he : e = .invalid_argument ∨ e = .out_of_range)
      (hrefused : ¬ PartsRefused ((ipPart s).splitOn period) 0)
      (hnot : ∃ w ∈ (ipPart s).splitOn period, ¬ Passes w) : ClientEnd s (.error e)

theorem clientEnd (s : List UInt8) : ClientEnd s (testHarnessClient s) := by
  have hparts := partsEnd (List.splitOn_ne_nil period (ipPart s)) 0
  unfold testHarnessClient isValidIpV4
  dsimp only
  generalize isValidParts ((ipPart s).splitOn period) 0 = result at hparts
  cases hparts with
  | valid hpass hcount =>
      rw [Nat.zero_add] at hcount
      cases hport : stoi (portPart s) with
      | ok n =>
          change ClientEnd s (.ok (ipPart s, narrow n))
          exact .connects hpass hcount hport
      | error e =>
          change ClientEnd s (.error _)
          exact .refused (Or.inr ⟨hpass, hcount, by simp [hport]⟩) (Or.inr rfl)
  | refused h => exact .refused (Or.inl h) (Or.inl rfl)
  | throws he hrefused hnot => exact .throws he hrefused hnot

/-! ### An address is accepted -/

theorem period_not_mem (h : Decimal w) : period ∉ w := fun hmem =>
  absurd (h.2 period hmem) (by decide)

theorem colon_not_mem (h : Decimal w) : colon ∉ w := fun hmem =>
  absurd (h.2 colon hmem) (by decide)

theorem ipPart_append {port : List UInt8} (h : colon ∉ ip) : ipPart (ip ++ colon :: port) = ip := by
  unfold ipPart
  rw [List.takeWhile_append_of_pos fun b hb => ?_]
  · simp
  · simpa using fun heq : b = colon => h (heq ▸ hb)

theorem portPart_append {port : List UInt8} (h : colon ∉ ip) :
    portPart (ip ++ colon :: port) = port := by
  unfold portPart
  rw [List.dropWhile_append_of_pos fun b hb => ?_]
  · simp
  · simpa using fun heq : b = colon => h (heq ▸ hb)

theorem IsAddress.connects {p : Nat} (h : IsAddress s ip p) :
    testHarnessClient s = .ok (ip, UInt16.ofNat p) := by
  obtain ⟨a, b, c, d, port, hparts, rfl, rfl, hport, rfl, hpos, hle⟩ := h
  have hsplit : ([period].intercalate [a, b, c, d]).splitOn period = [a, b, c, d] :=
    List.splitOn_intercalate period (fun w hw => period_not_mem (hparts w hw).1) (by simp)
  have hcolon : colon ∉ [period].intercalate [a, b, c, d] := by
    have hall := fun w hw => colon_not_mem (hparts w hw).1
    simp only [List.mem_cons, List.not_mem_nil, or_false, forall_eq_or_imp, forall_eq] at hall
    simpa [List.intercalate, colon, period] using hall
  have hpass : ∀ w ∈ [a, b, c, d], Passes w := fun w hw =>
    ⟨value w, stoi_of_decimal (hparts w hw).1 (by have := (hparts w hw).2; omega), by omega,
      by have := (hparts w hw).2; omega⟩
  have hstoi := stoi_of_decimal hport (by omega)
  have hend := clientEnd ([period].intercalate [a, b, c, d] ++ colon :: port)
  generalize testHarnessClient ([period].intercalate [a, b, c, d] ++ colon :: port) = result
    at hend ⊢
  cases hend with
  | connects _ _ hn =>
      rw [portPart_append hcolon, hstoi, Except.ok.injEq] at hn
      rw [ipPart_append hcolon, ← hn, narrow]
      have hnat : ((value port : Int) % 2 ^ 16).toNat = value port := by omega
      rw [hnat]
  | refused hrefused hstatus =>
      unfold Refused at hrefused
      rw [ipPart_append hcolon, hsplit, portPart_append hcolon] at hrefused
      rcases hrefused with hparts | ⟨-, -, hport⟩
      · exact absurd hparts (not_partsRefused hpass rfl)
      · exact absurd hstoi (hport _)
  | throws he _ hnot =>
      rw [ipPart_append hcolon, hsplit] at hnot
      obtain ⟨w, hw, hnot⟩ := hnot
      exact absurd (hpass w hw) hnot

/-! ### Which strings the constructor accepts -/

/-- The constructor does what is asked of it where the string is an address and where it is refused.
In between are the strings with a part that only begins with a number, those without a colon or with
a port out of range, and those with a part that is no number before it is settled that they are
refused. -/
theorem addressOk_iff (s : List UInt8) :
    AddressOk s ↔ (∃ ip p, IsAddress s ip p) ∨ Refused s := by
  have hend := clientEnd s
  constructor
  · intro hok
    cases hresult : testHarnessClient s with
    | ok r => exact Or.inl (hok.accepts.mp ⟨r.1, r.2, hresult⟩)
    | error e =>
        obtain ⟨message, he⟩ := hok.throws e hresult
        rw [hresult] at hend
        cases hend with
        | refused h hstatus => exact Or.inr h
        | throws hlib =>
            rcases hlib with rfl | rfl <;> rcases he with he | he <;> cases he
  · rintro (⟨ip, p, haddress⟩ | hrefused)
    · have hconnects := haddress.connects
      have hp : p ≤ 65535 := by
        obtain ⟨a, b, c, d, port, -, -, -, -, rfl, -, hle⟩ := haddress
        exact hle
      refine ⟨iff_of_true ⟨ip, _, hconnects⟩ ⟨ip, p, haddress⟩, fun ip' port h => ?_,
        fun e he => ?_⟩
      · rw [hconnects] at h
        cases h
        rwa [UInt16.toNat_ofNat_of_lt' (by show p < 65536; omega)]
      · rw [hconnects] at he
        cases he
    · obtain ⟨message, status, hstatus, herror⟩ : ∃ message status,
          (status = .INVALID_IP_ADDRESS ∨ status = .INVALID_PORT_NUMBER)
            ∧ testHarnessClient s = .error (.exn (.socket status message)) := by
        generalize testHarnessClient s = result at hend ⊢
        cases hend with
        | connects hpass hlen hport =>
            rcases hrefused with hparts | ⟨-, -, hnone⟩
            · exact absurd hparts (not_partsRefused hpass (by rw [Nat.zero_add, hlen]))
            · exact absurd hport (hnone _)
        | refused h hstatus => exact ⟨_, _, hstatus, rfl⟩
        | throws he hparts hnot =>
            rcases hrefused with h | ⟨hpass, -⟩
            · exact absurd h hparts
            · obtain ⟨w, hw, hnot⟩ := hnot
              exact absurd (hpass w hw) hnot
      refine ⟨iff_of_false ?_ ?_, fun ip port h => ?_, fun e he => ?_⟩
      · rintro ⟨ip, port, h⟩
        rw [herror] at h
        cases h
      · rintro ⟨ip, p, haddress⟩
        have hconnects := haddress.connects
        rw [herror] at hconnects
        cases hconnects
      · rw [herror] at h
        cases h
      · rw [herror] at he
        cases he
        rcases hstatus with rfl | rfl
        · exact ⟨message, Or.inl rfl⟩
        · exact ⟨message, Or.inr rfl⟩

/-- An address without a port is accepted, its first number being taken for the port. -/
theorem not_addressOk : ¬ ∀ s, AddressOk s := by
  intro hall
  have haccepted : testHarnessClient [49, 46, 50, 46, 51, 46, 52]
      = .ok ([49, 46, 50, 46, 51, 46, 52], 1) := by
    decide
  obtain ⟨ip, p, a, b, c, d, port, -, -, heq, -⟩ := (hall _).accepts.mp ⟨_, _, haccepted⟩
  have hcolon : colon ∈ ([49, 46, 50, 46, 51, 46, 52] : List UInt8) := by
    rw [heq]
    simp
  exact absurd hcolon (by decide)

end Address

end AieTestHarness
