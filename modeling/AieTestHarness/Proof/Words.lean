import AieTestHarness.Proof.Config

/-!
# Stream words and memory words

Both modes cut memory words into stream words on the way to the AIE, and pack the stream words that
come from the AIE from the bottom of a cleared memory word; a memory word that is not filled is zero
above.
-/

namespace AieTestHarness

open Slices

variable {p : Kernel} {bs : List Beat} {tmp : Beat}

/-- Stream words of the width of the stream. -/
def Sized (p : Kernel) (bs : List Beat) : Prop := ∀ b ∈ bs, b.length = p.word_size

theorem Sized.length_flatten (h : Sized p bs) : bs.flatten.length = bs.length * p.word_size :=
  length_flatten_of_width h

theorem Sized.slice (h : Sized p bs) (off n : Nat) : Sized p (slice off n bs) :=
  fun b hb => h b (List.mem_of_mem_drop (List.mem_of_mem_take hb))

theorem sized_replicate {n : Nat} {b : Beat} (h : b.length = p.word_size) :
    Sized p (List.replicate n b) :=
  fun _ hb => List.eq_of_mem_replicate hb ▸ h

def TestHarnessArgs.frame (p : Kernel) (a : TestHarnessArgs) (i : Nat) : Beat :=
  slice (i * p.word_size) p.word_size a.data.bytes

def TestHarnessArgs.beats (p : Kernel) (a : TestHarnessArgs) : List Beat :=
  (List.range (a.size / p.word_size)).map (a.frame p)

/-- The stream words in a region are the region's bytes in order. -/
theorem range_readWord_eq_slice {mem : List UInt8} {off i : Nat} :
    p.range (p.readWord mem (off + i / p.memRatio)) (i % p.memRatio)
      = slice (off * p.memWidth + i * p.word_size) p.word_size mem := by
  have hR := p.memRatio_pos
  have hmod := Nat.mod_lt i hR
  have hfit : i % p.memRatio * p.word_size + p.word_size ≤ p.memWidth := by
    have := Nat.mul_le_mul_right p.word_size (show i % p.memRatio + 1 ≤ p.memRatio from hmod)
    rw [p.memRatio_mul, Nat.succ_mul] at this
    exact this
  unfold Kernel.range Kernel.readWord
  rw [slice_slice _ hfit]
  congr 1
  have hsplit : i * p.word_size
      = i / p.memRatio * p.memWidth + i % p.memRatio * p.word_size := by
    conv_lhs => rw [← Nat.div_add_mod i p.memRatio]
    rw [Nat.add_mul, Nat.mul_comm p.memRatio, Nat.mul_assoc, p.memRatio_mul]
  rw [hsplit, Nat.add_mul]
  omega

theorem readWord_overwrite_self {mem : List UInt8} {k : Nat} {data : MemWord}
    (hdata : data.length = p.memWidth) (hfit : (k + 1) * p.memWidth ≤ mem.length) :
    p.readWord (overwrite mem (k * p.memWidth) data) k = data := by
  rw [Nat.succ_mul] at hfit
  have hslice : slice (k * p.memWidth) data.length (overwrite mem (k * p.memWidth) data) = data :=
    slice_overwrite_self (by omega)
  rwa [hdata] at hslice

theorem readWord_overwrite_of_ne {mem : List UInt8} {k k' : Nat} {data : MemWord}
    (hdata : data.length = p.memWidth) (hfit : (k + 1) * p.memWidth ≤ mem.length) (hne : k' ≠ k) :
    p.readWord (overwrite mem (k * p.memWidth) data) k' = p.readWord mem k' := by
  rw [Nat.succ_mul] at hfit
  refine slice_overwrite_of_disjoint (by omega) ?_
  rw [hdata, ← Nat.succ_mul, ← Nat.succ_mul]
  rcases Nat.lt_or_gt_of_ne hne with hlt | hgt
  · exact Or.inl (Nat.mul_le_mul_right _ hlt)
  · exact Or.inr (Nat.mul_le_mul_right _ hgt)

/-- Stream words from the bottom of a memory word on. -/
def packed (p : Kernel) (bs : List Beat) : MemWord :=
  bs.flatten ++ List.replicate (p.memWidth - bs.flatten.length) 0

theorem packed_nil : packed p [] = p.zeroWord := rfl

theorem length_packed (h : Sized p bs) (hfit : bs.length ≤ p.memRatio) :
    (packed p bs).length = p.memWidth := by
  have := Nat.mul_le_mul_right p.word_size hfit
  rw [p.memRatio_mul] at this
  rw [packed, List.length_append, List.length_replicate, h.length_flatten]
  omega

theorem setRange_packed (h : Sized p bs) :
    p.setRange (packed p bs) bs.length tmp = packed p (bs ++ [tmp]) := by
  unfold Kernel.setRange packed
  rw [← h.length_flatten, overwrite_append_replicate, List.flatten_append, List.flatten_singleton,
    List.length_append, Nat.sub_sub]

/-- The bytes a packed word starts with. -/
theorem take_packed : (packed p bs).take bs.flatten.length = bs.flatten :=
  List.take_left

/-- The words the stream words take, `memRatio` to a word, hold their bytes in order. The induction
is on the memory words. -/
theorem slice_of_words (mem : List UInt8) (off : Nat) (h : Sized p bs)
    (hwords : ∀ k, k * p.memRatio < bs.length →
      p.readWord mem (off + k) = packed p (slice (k * p.memRatio) p.memRatio bs)) :
    slice (off * p.memWidth) (bs.length * p.word_size) mem = bs.flatten := by
  have hR := p.memRatio_pos
  have hW := p.word_pos
  suffices hall : ∀ n, slice (off * p.memWidth) (min (n * p.memWidth) (bs.length * p.word_size)) mem
      = (bs.take (n * p.memRatio)).flatten by
    have hlast := hall bs.length
    rwa [Nat.min_eq_right (Nat.mul_le_mul_left _ p.word_le_memWidth),
      List.take_of_length_le (Nat.le_mul_of_pos_right _ hR)] at hlast
  intro n
  induction n with
  | zero => simp
  | succ n ih =>
      have hscale : n * p.memWidth = n * p.memRatio * p.word_size := by
        rw [Nat.mul_assoc, p.memRatio_mul]
      by_cases hlt : n * p.memRatio < bs.length
      · -- one more word, or as much of it as is filled
        have hin : n * p.memWidth ≤ bs.length * p.word_size := by
          rw [hscale]
          exact Nat.mul_le_mul_right _ (Nat.le_of_lt hlt)
        have hpiece : (slice (n * p.memRatio) p.memRatio bs).flatten.length
            = min p.memWidth (bs.length * p.word_size - n * p.memWidth) := by
          rw [(h.slice _ _).length_flatten, length_slice_eq_min, ← Nat.mul_min_mul_right,
            p.memRatio_mul, Nat.sub_mul, hscale]
        have hmin : min ((n + 1) * p.memWidth) (bs.length * p.word_size)
            = n * p.memWidth + min p.memWidth (bs.length * p.word_size - n * p.memWidth) := by
          rw [Nat.succ_mul]
          omega
        have hread := hwords n hlt
        unfold Kernel.readWord at hread
        rw [Nat.min_eq_left hin] at ih
        rw [hmin, ← slice_append_slice, ih, ← Nat.add_mul,
          ← Nat.add_zero ((off + n) * p.memWidth), ← slice_slice mem (show 0 + _ ≤ p.memWidth by
            rw [Nat.zero_add]; exact Nat.min_le_left _ _), hread, ← hpiece, slice_zero_off,
          take_packed, ← List.flatten_append, Nat.succ_mul, List.take_add]
        rfl
      · have hall : bs.length * p.word_size ≤ n * p.memWidth := by
          rw [hscale]
          exact Nat.mul_le_mul_right _ (Nat.le_of_not_lt hlt)
        rw [Nat.min_eq_right hall, List.take_of_length_le (Nat.le_of_not_lt hlt)] at ih
        rw [Nat.succ_mul, Nat.succ_mul, Nat.min_eq_right (by omega),
          List.take_of_length_le (by omega)]
        exact ih

end AieTestHarness
