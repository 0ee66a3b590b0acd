import Mathlib.Data.List.Basic

/-!
# Slices and overwrites of lists

A buffer is a list. `slice off len` reads `len` entries from `off` on, `overwrite dst off src` puts
`src` in at `off`. An overwrite that stays inside the buffer keeps its length and everything outside
the range it covers, which is all a layout proof needs: what was written is read back, and what lies
elsewhere is as before.
-/

namespace Slices

variable {α β : Type*}

def slice (off len : Nat) (l : List α) : List α := (l.drop off).take len

/-- `dst` with `src` in place of the entries from `off` on. -/
def overwrite (dst : List α) (off : Nat) (src : List α) : List α :=
  dst.take off ++ (src ++ dst.drop (off + src.length))

theorem getElem?_slice (off len : Nat) (l : List α) (i : Nat) :
    (slice off len l)[i]? = if i < len then l[off + i]? else none := by
  simp only [slice, List.getElem?_take, List.getElem?_drop]

theorem length_slice {off len : Nat} {l : List α} (h : off + len ≤ l.length) :
    (slice off len l).length = len := by
  simp only [slice, List.length_take, List.length_drop]
  omega

theorem length_slice_eq_min (off len : Nat) (l : List α) :
    (slice off len l).length = min len (l.length - off) := by
  simp only [slice, List.length_take, List.length_drop]

@[simp]
theorem slice_zero_len (off : Nat) (l : List α) : slice off 0 l = [] := by
  simp [slice]

theorem slice_zero_off (len : Nat) (l : List α) : slice 0 len l = l.take len := by
  simp [slice]

theorem slice_self (l : List α) : slice 0 l.length l = l := by
  simp [slice]

theorem slice_slice {off len o n : Nat} (l : List α) (h : o + n ≤ len) :
    slice o n (slice off len l) = slice (off + o) n l := by
  apply List.ext_getElem?
  intro i
  simp only [getElem?_slice]
  by_cases hi : i < n
  · rw [if_pos hi, if_pos hi, if_pos (by omega), Nat.add_assoc]
  · rw [if_neg hi, if_neg hi]

theorem slice_take {off len n : Nat} (l : List α) (h : off + len ≤ n) :
    slice off len (l.take n) = slice off len l := by
  rw [← slice_zero_off, slice_slice l h, Nat.zero_add]

/-- Two neighbouring slices make one. -/
theorem slice_append_slice (off a b : Nat) (l : List α) :
    slice off a l ++ slice (off + a) b l = slice off (a + b) l := by
  simp only [slice, List.take_add, List.drop_drop]

theorem slice_append_left {off len : Nat} {l l' : List α} (h : off + len ≤ l.length) :
    slice off len (l ++ l') = slice off len l := by
  apply List.ext_getElem?
  intro i
  simp only [getElem?_slice]
  by_cases hi : i < len
  · rw [if_pos hi, if_pos hi, List.getElem?_append_left (by omega)]
  · rw [if_neg hi, if_neg hi]

theorem slice_append_right {off len : Nat} {l l' : List α} (h : l.length ≤ off) :
    slice off len (l ++ l') = slice (off - l.length) len l' := by
  apply List.ext_getElem?
  intro i
  simp only [getElem?_slice]
  by_cases hi : i < len
  · rw [if_pos hi, if_pos hi, List.getElem?_append_right (by omega)]
    congr 1
    omega
  · rw [if_neg hi, if_neg hi]

theorem getElem?_overwrite {dst : List α} {off : Nat} {src : List α}
    (h : off + src.length ≤ dst.length) (i : Nat) :
    (overwrite dst off src)[i]?
      = if i < off then dst[i]? else if i < off + src.length then src[i - off]? else dst[i]? := by
  have hlen : (dst.take off).length = off := by
    rw [List.length_take]
    omega
  unfold overwrite
  by_cases hlow : i < off
  · rw [if_pos hlow, List.getElem?_append_left (by omega), List.getElem?_take, if_pos hlow]
  · rw [if_neg hlow, List.getElem?_append_right (by omega), hlen]
    by_cases hmid : i < off + src.length
    · rw [if_pos hmid, List.getElem?_append_left (by omega)]
    · rw [if_neg hmid, List.getElem?_append_right (by omega), List.getElem?_drop]
      congr 1
      omega

theorem length_overwrite {dst : List α} {off : Nat} {src : List α}
    (h : off + src.length ≤ dst.length) : (overwrite dst off src).length = dst.length := by
  simp only [overwrite, List.length_append, List.length_take, List.length_drop]
  omega

theorem slice_overwrite_self {dst : List α} {off : Nat} {src : List α}
    (h : off + src.length ≤ dst.length) : slice off src.length (overwrite dst off src) = src := by
  apply List.ext_getElem?
  intro i
  rw [getElem?_slice, getElem?_overwrite h]
  by_cases hi : i < src.length
  · rw [if_pos hi, if_neg (by omega), if_pos (by omega), Nat.add_sub_cancel_left]
  · rw [if_neg hi, List.getElem?_eq_none (by omega)]

theorem slice_overwrite_of_disjoint {dst : List α} {off : Nat} {src : List α} {o n : Nat}
    (h : off + src.length ≤ dst.length) (hdisjoint : o + n ≤ off ∨ off + src.length ≤ o) :
    slice o n (overwrite dst off src) = slice o n dst := by
  apply List.ext_getElem?
  intro i
  rw [getElem?_slice, getElem?_slice]
  by_cases hi : i < n
  · rw [if_pos hi, if_pos hi, getElem?_overwrite h]
    rcases hdisjoint with hbefore | hafter
    · rw [if_pos (by omega)]
    · rw [if_neg (by omega), if_neg (by omega)]
  · rw [if_neg hi, if_neg hi]

theorem overwrite_overwrite_append {dst : List α} {off : Nat} {a b : List α}
    (h : off + a.length + b.length ≤ dst.length) :
    overwrite (overwrite dst off a) (off + a.length) b = overwrite dst off (a ++ b) := by
  have hfirst : off + a.length ≤ dst.length := by omega
  apply List.ext_getElem?
  intro i
  rw [getElem?_overwrite (by rw [length_overwrite hfirst]; exact h), getElem?_overwrite hfirst,
    getElem?_overwrite (by rw [List.length_append]; omega), List.length_append, ← Nat.add_assoc]
  by_cases hlow : i < off
  · rw [if_pos (by omega), if_pos hlow, if_pos hlow]
  · rw [if_neg hlow, if_neg hlow]
    by_cases hmid : i < off + a.length
    · rw [if_pos hmid, if_pos hmid, if_pos (by omega), List.getElem?_append_left (by omega)]
    · rw [if_neg hmid]
      by_cases hhigh : i < off + a.length + b.length
      · rw [if_pos hhigh, if_pos hhigh, List.getElem?_append_right (by omega)]
        congr 1
        omega
      · rw [if_neg hhigh, if_neg hhigh, if_neg hmid]

theorem overwrite_overwrite_self {dst : List α} {off : Nat} {a b : List α}
    (ha : off + a.length ≤ dst.length) (hb : a.length = b.length) :
    overwrite (overwrite dst off a) off b = overwrite dst off b := by
  apply List.ext_getElem?
  intro i
  rw [getElem?_overwrite (by rw [length_overwrite ha]; omega), getElem?_overwrite ha,
    getElem?_overwrite (by omega), hb]
  by_cases hlow : i < off
  · simp only [if_pos hlow]
  · by_cases hmid : i < off + b.length
    · simp only [if_neg hlow, if_pos hmid]
    · simp only [if_neg hlow, if_neg hmid]

theorem set_eq_overwrite {dst : List α} {i : Nat} {x : α} (h : i < dst.length) :
    dst.set i x = overwrite dst i [x] := by
  rw [List.set_eq_take_append_cons_drop, if_pos h]
  rfl

@[simp]
theorem overwrite_nil (dst : List α) (off : Nat) : overwrite dst off [] = dst := by
  simp [overwrite]

theorem take_overwrite_zero {dst src : List α} {n : Nat} (hn : src.length = n)
    (h : n ≤ dst.length) : (overwrite dst 0 src).take n = src := by
  subst hn
  have hslice : slice 0 src.length (overwrite dst 0 src) = src := slice_overwrite_self (by omega)
  rwa [slice_zero_off] at hslice

theorem slice_succ {off n : Nat} {l : List α} (h : off + n < l.length) :
    slice off (n + 1) l = slice off n l ++ [l[off + n]] := by
  unfold slice
  rw [List.take_succ_eq_append_getElem (by rw [List.length_drop]; omega), List.getElem_drop]

/-- Writing right behind what a cleared buffer holds so far. -/
theorem overwrite_append_replicate {a src : List α} {n : Nat} {z : α} :
    overwrite (a ++ List.replicate n z) a.length src
      = a ++ src ++ List.replicate (n - src.length) z := by
  unfold overwrite
  rw [List.take_left, List.drop_append, List.drop_of_length_le (by omega), List.nil_append,
    Nat.add_sub_cancel_left, List.drop_replicate, List.append_assoc]

theorem slice_replicate {off len n : Nat} {x : α} (h : off + len ≤ n) :
    slice off len (List.replicate n x) = List.replicate len x := by
  rw [slice, List.drop_replicate, List.take_replicate, Nat.min_eq_left (by omega)]

/-! ### Cutting into equal pieces -/

def pieces (width n : Nat) (l : List α) : List (List α) :=
  (List.range n).map fun i => slice (i * width) width l

@[simp]
theorem length_pieces (width n : Nat) (l : List α) : (pieces width n l).length = n := by
  simp [pieces]

theorem pieces_succ (width n : Nat) (l : List α) :
    pieces width (n + 1) l = pieces width n l ++ [slice (n * width) width l] := by
  simp [pieces, List.range_succ]

theorem flatten_pieces (width n : Nat) (l : List α) :
    (pieces width n l).flatten = l.take (n * width) := by
  induction n with
  | zero => simp [pieces]
  | succ n ih =>
      rw [pieces_succ, List.flatten_append, ih, List.flatten_singleton, ← slice_zero_off,
        ← slice_zero_off]
      have := slice_append_slice 0 (n * width) width l
      rw [Nat.zero_add] at this
      rw [this, Nat.succ_mul]

/-- Equal pieces put together: the `i`-th is the slice at `i * width`. -/
theorem slice_flatten {width : Nat} {bs : List (List α)} (hwidth : ∀ b ∈ bs, b.length = width)
    {i : Nat} (hi : i < bs.length) : slice (i * width) width bs.flatten = bs[i] := by
  induction bs generalizing i with
  | nil => exact absurd hi (by simp)
  | cons b bs ih =>
      have hb : b.length = width := hwidth b (by simp)
      cases i with
      | zero =>
          rw [Nat.zero_mul, List.flatten_cons, slice_append_left (by omega)]
          simp [slice, ← hb]
      | succ i =>
          rw [List.flatten_cons, slice_append_right (by rw [hb, Nat.succ_mul]; omega), hb,
            Nat.succ_mul, Nat.add_sub_cancel]
          simpa using ih (fun b hb => hwidth b (by simp [hb])) (by simpa using hi)

theorem length_flatten_of_width {width : Nat} {bs : List (List α)}
    (hwidth : ∀ b ∈ bs, b.length = width) : bs.flatten.length = bs.length * width := by
  induction bs with
  | nil => simp
  | cons b bs ih =>
      rw [List.flatten_cons, List.length_append, hwidth b (by simp),
        ih fun b hb => hwidth b (by simp [hb]), List.length_cons, Nat.succ_mul, Nat.add_comm]

theorem pieces_flatten {width : Nat} {bs : List (List α)} (hwidth : ∀ b ∈ bs, b.length = width) :
    pieces width bs.length bs.flatten = bs := by
  apply List.ext_getElem
  · simp
  · intro i hi hi'
    simp only [pieces, List.getElem_map, List.getElem_range]
    exact slice_flatten hwidth hi'

theorem pieces_take {width n m : Nat} {l : List α} (h : n * width ≤ m) :
    pieces width n (l.take m) = pieces width n l := by
  refine List.map_congr_left fun i hi => slice_take l ?_
  calc
    i * width + width = (i + 1) * width := (Nat.succ_mul i width).symm
    _ ≤ n * width := Nat.mul_le_mul_right width (List.mem_range.mp hi)
    _ ≤ m := h

theorem take_flatten_of_width {width : Nat} {bs : List (List α)}
    (hwidth : ∀ b ∈ bs, b.length = width) (n : Nat) :
    bs.flatten.take (n * width) = (bs.take n).flatten := by
  induction bs generalizing n with
  | nil => rw [List.take_nil, List.flatten_nil, List.take_nil]
  | cons b bs ih =>
      cases n with
      | zero => rw [Nat.zero_mul, List.take_zero, List.take_zero, List.flatten_nil]
      | succ n =>
          have hb : b.length = width := hwidth b List.mem_cons_self
          rw [List.flatten_cons, List.take_succ_cons, List.flatten_cons, Nat.succ_mul, Nat.add_comm,
            ← hb, List.take_length_add_append, hb,
            ih (fun b hb => hwidth b (List.mem_cons_of_mem _ hb)) n]

theorem drop_flatten_of_width {width : Nat} {bs : List (List α)}
    (hwidth : ∀ b ∈ bs, b.length = width) (n : Nat) :
    bs.flatten.drop (n * width) = (bs.drop n).flatten := by
  induction bs generalizing n with
  | nil => rw [List.drop_nil, List.flatten_nil, List.drop_nil]
  | cons b bs ih =>
      cases n with
      | zero => rw [Nat.zero_mul, List.drop_zero, List.drop_zero]
      | succ n =>
          have hb : b.length = width := hwidth b List.mem_cons_self
          rw [List.flatten_cons, List.drop_succ_cons, Nat.succ_mul, Nat.add_comm, ← hb,
            List.drop_length_add_append, hb,
            ih (fun b hb => hwidth b (List.mem_cons_of_mem _ hb)) n]

/-- Whole pieces of what has been put together. -/
theorem slice_flatten_of_width {width : Nat} {bs : List (List α)}
    (hwidth : ∀ b ∈ bs, b.length = width) (i n : Nat) :
    slice (i * width) (n * width) bs.flatten = (slice i n bs).flatten := by
  unfold slice
  rw [drop_flatten_of_width hwidth, take_flatten_of_width]
  exact fun b hb => hwidth b (List.mem_of_mem_drop hb)

/-! ### A loop that fills slots

`for (i = 0; i < n; i++) buff[base + i] = v(i)`, the shape of every buffer loop here. -/

/-- The slots `base + i`, `i < n`, set to `v i` in turn. -/
def fill (buff : List β) (base n : Nat) (v : Nat → β) : List β :=
  (List.range n).foldl (fun b i => b.set (base + i) (v i)) buff

theorem fill_succ (buff : List β) (base n : Nat) (v : Nat → β) :
    fill buff base (n + 1) v = (fill buff base n v).set (base + n) (v n) := by
  simp [fill, List.range_succ]

@[simp]
theorem fill_zero (buff : List β) (base : Nat) (v : Nat → β) : fill buff base 0 v = buff := rfl

@[simp]
theorem length_fill (buff : List β) (base n : Nat) (v : Nat → β) :
    (fill buff base n v).length = buff.length := by
  induction n with
  | zero => rfl
  | succ n ih => rw [fill_succ, List.length_set, ih]

theorem getElem?_fill {buff : List β} {base n : Nat} {v : Nat → β} (h : base + n ≤ buff.length)
    (k : Nat) :
    (fill buff base n v)[k]? = if base ≤ k
      ∧ k < base + n then some (v (k - base)) else buff[k]? := by
  induction n with
  | zero => rw [fill_zero, if_neg (by omega)]
  | succ n ih =>
      rw [fill_succ, List.getElem?_set, length_fill]
      by_cases hk : base + n = k
      · rw [if_pos hk, if_pos (by omega), if_pos (by omega)]
        congr 2
        omega
      · rw [if_neg hk, ih (by omega)]
        by_cases hmem : base ≤ k ∧ k < base + n
        · rw [if_pos hmem, if_pos (by omega)]
        · rw [if_neg hmem, if_neg (by omega)]

end Slices
