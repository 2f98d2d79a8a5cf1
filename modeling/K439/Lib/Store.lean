import Mathlib.Algebra.Group.Nat.Defs
import Mathlib.Data.List.Nodup
import Mathlib.Tactic.Common

/-!
# Stores

A store is a function from addresses to values. `slice m a n` reads `n` values at `a` and
`put m a l` writes a list there. A list of blocks makes a store of its own, `view`: the contents of
the blocks one after the other; a write within one block is a write to the view. Numbers are kept
in stores of bytes with the least significant byte first.
-/

namespace K439

variable {α : Type _} {m m' : Nat → α} {a b n k x i B : Nat} {l l' : List α} {bs : List Nat}

/-- The `n` values from `a` on. -/
def slice (m : Nat → α) (a n : Nat) : List α := (List.range' a n).map m

/-- The store after the list `l` is written at `a`. -/
def put (m : Nat → α) (a : Nat) (l : List α) : Nat → α :=
  fun x => if a ≤ x then l.getD (x - a) (m x) else m x

@[simp] theorem slice_length : (slice m a n).length = n := by simp [slice]

@[simp] theorem slice_zero : slice m a 0 = [] := rfl

theorem slice_succ : slice m a (n + 1) = m a :: slice m (a + 1) n := by
  simp [slice, List.range'_succ]

theorem slice_add : slice m a (n + k) = slice m a n ++ slice m (a + n) k := by
  rw [slice, ← List.range'_append_1, List.map_append]; rfl

theorem getElem_slice (h : i < (slice m a n).length) : (slice m a n)[i] = m (a + i) := by
  simp [slice]

theorem slice_congr (h : ∀ i < n, m' (b + i) = m (a + i)) : slice m' b n = slice m a n := by
  apply List.ext_getElem
  · simp
  · intro i hi _
    rw [getElem_slice, getElem_slice]
    exact h i (by simpa using hi)

theorem eq_of_slice_eq (h : slice m' b n = slice m a n) (hi : i < n) : m' (b + i) = m (a + i) := by
  have := List.getElem_of_eq h (i := i) (by simpa using hi)
  rwa [getElem_slice, getElem_slice] at this

theorem slice_take (h : n ≤ k) : (slice m a k).take n = slice m a n := by
  obtain ⟨j, rfl⟩ := Nat.exists_eq_add_of_le h
  rw [slice_add, List.take_left' slice_length]

theorem slice_drop : (slice m a (n + k)).drop n = slice m (a + n) k := by
  rw [slice_add, List.drop_left' slice_length]

theorem slice_slice (h : i + k ≤ n) : ((slice m a n).drop i).take k = slice m (a + i) k := by
  obtain ⟨j, rfl⟩ := Nat.exists_eq_add_of_le (Nat.le_of_add_right_le h)
  rw [slice_drop, slice_take (by omega)]

@[simp] theorem put_nil : put m a [] = m := by
  funext x
  simp [put]

theorem put_of_lt (h : x < a) : put m a l x = m x := if_neg (Nat.not_le_of_lt h)

theorem put_of_le (h : a + l.length ≤ x) : put m a l x = m x := by
  rw [put, if_pos (by omega), List.getD_eq_getElem?_getD, List.getElem?_eq_none (by omega)]
  rfl

theorem put_of_outside (h : x < a ∨ a + l.length ≤ x) : put m a l x = m x :=
  h.elim put_of_lt put_of_le

theorem put_add (h : i < l.length) : put m a l (a + i) = l[i] := by
  simp [put, h]

/-- Two adjacent writes are one. -/
theorem put_put : put (put m a l) (a + l.length) l' = put m a (l ++ l') := by
  funext x
  rcases Nat.lt_or_ge x a with h | h
  · rw [put_of_lt (by omega), put_of_lt h, put_of_lt h]
  obtain ⟨i, rfl⟩ := Nat.exists_eq_add_of_le h
  rcases Nat.lt_or_ge i l.length with hi | hi
  · rw [put_of_lt (by omega), put_add hi, put_add (by simp; omega), List.getElem_append_left hi]
  obtain ⟨j, rfl⟩ := Nat.exists_eq_add_of_le hi
  rcases Nat.lt_or_ge j l'.length with hj | hj
  · rw [← Nat.add_assoc, put_add hj, Nat.add_assoc, put_add (by simp; omega),
      List.getElem_append_right (by omega)]
    simp
  · rw [put_of_le (by omega), put_of_le (by omega), put_of_le (by simp; omega)]

theorem put_congr (h : m x = m' x) : put m a l x = put m' a l x := by
  rw [put, put, h]

/-- Writes that do not overlap can be swapped. -/
theorem put_comm (h : a + l.length ≤ b ∨ b + l'.length ≤ a) :
    put (put m a l) b l' = put (put m b l') a l := by
  funext x
  by_cases hb : b ≤ x ∧ x < b + l'.length
  · obtain ⟨k, rfl⟩ := Nat.exists_eq_add_of_le hb.1
    rw [put_add (by omega), put_of_outside (by omega), put_add (by omega)]
  · rw [put_of_outside (by omega)]
    exact put_congr (put_of_outside (by omega)).symm

theorem slice_put : slice (put m a l) a l.length = l := by
  apply List.ext_getElem
  · simp
  · intro i _ hi
    rw [getElem_slice, put_add hi]

theorem slice_put_of_disjoint (h : a + n ≤ b ∨ b + l.length ≤ a) :
    slice (put m b l) a n = slice m a n := by
  refine slice_congr fun i hi => ?_
  rcases h with h | h
  · exact put_of_lt (by omega)
  · exact put_of_le (by omega)

/-- Writing back what was read changes nothing. -/
@[simp] theorem put_slice : put m a (slice m a n) = m := by
  funext x
  rcases Nat.lt_or_ge x a with h | h
  · exact put_of_lt h
  obtain ⟨i, rfl⟩ := Nat.exists_eq_add_of_le h
  rcases Nat.lt_or_ge i n with hi | hi
  · rw [put_add (by simpa using hi), getElem_slice]
  · exact put_of_le (by simp; omega)

/-- Reading a piece, changing a part of it and writing the piece back. -/
theorem put_splice (h : i + l.length ≤ n) :
    put m a ((slice m a n).take i ++ l ++ (slice m a n).drop (i + l.length)) = put m (a + i) l := by
  have hd : (slice m a n).drop (i + l.length) =
      slice (put m (a + i) l) (a + i + l.length) (n - (i + l.length)) := by
    rw [slice_put_of_disjoint (.inr (Nat.le_refl _)), Nat.add_assoc, ← slice_drop,
      Nat.add_sub_cancel' h]
  rw [← put_put, ← put_put, slice_take (by omega), put_slice, slice_length, hd,
    List.length_append, slice_length, ← Nat.add_assoc]
  exact put_slice

/-- Writing at the end of a slice extends it. -/
theorem slice_put_append : slice (put m (a + n) l) a (n + l.length) = slice m a n ++ l := by
  rw [slice_add, slice_put, slice_put_of_disjoint (.inl (Nat.le_refl _))]

/-! ## Blocks -/

/-- The contents of the blocks `bs`, of `B` values each, one after the other. -/
def view (B : Nat) (m : Nat → α) (bs : List Nat) : Nat → α :=
  fun p => m (bs.getD (p / B) 0 * B + p % B)

theorem view_of_lt (h : x / B < bs.length) : view B m bs x = m (bs[x / B] * B + x % B) := by
  simp [view, h]

theorem view_append {l e : List Nat} (h : x / B < l.length) :
    view B m (l ++ e) x = view B m l x := by
  rw [view_of_lt h, view_of_lt (by rw [List.length_append]; omega), List.getElem_append_left h]

/-- An address in one block is not in a part of another one. -/
theorem block_disjoint (h : a ≠ b) (hx : x < B) (hk : i + k ≤ B) :
    a * B + x < b * B + i ∨ b * B + i + k ≤ a * B + x := by
  rcases Nat.lt_or_gt_of_ne h with h | h
  · have := Nat.mul_le_mul_right B (Nat.succ_le_of_lt h)
    rw [Nat.succ_mul] at this
    left; omega
  · have := Nat.mul_le_mul_right B (Nat.succ_le_of_lt h)
    rw [Nat.succ_mul] at this
    right; omega

theorem put_block_ne (h : a ≠ b) (hx : x < B) (hl : i + l.length ≤ B) :
    put m (b * B + i) l (a * B + x) = m (a * B + x) := by
  rcases block_disjoint h hx hl with h | h
  · exact put_of_lt h
  · exact put_of_le h

theorem put_block_start_ne (h : a ≠ b) (hx : x < B) (hl : l.length ≤ B) :
    put m (b * B) l (a * B + x) = m (a * B + x) :=
  put_block_ne (i := 0) h hx (by rwa [Nat.zero_add])

/-- A write within a block of `bs` is a write to their contents. -/
theorem view_put {q : Nat} (hd : bs.Nodup) (hB : 0 < B) (hq : q / B < bs.length)
    (hl : q % B + l.length ≤ B) (hx : x / B < bs.length) :
    view B (put m (bs[q / B] * B + q % B) l) bs x = put (view B m bs) q l x := by
  have hq' := Nat.div_add_mod' q B
  have hx' := Nat.div_add_mod' x B
  rw [view_of_lt hx]
  by_cases hqx : x / B = q / B
  · simp only [hqx] at hx' ⊢
    rcases Nat.lt_or_ge x q with h | h
    · rw [put_of_lt (by omega), put_of_lt h, view_of_lt hx]
      simp only [hqx]
    obtain ⟨j, rfl⟩ := Nat.exists_eq_add_of_le h
    have hj : (q + j) % B = q % B + j := by omega
    rcases Nat.lt_or_ge j l.length with hjl | hjl
    · rw [hj, ← Nat.add_assoc, put_add hjl, put_add hjl]
    · rw [put_of_le (by omega), put_of_le (by omega), view_of_lt hx]
      simp only [hqx]
  · have hne : bs[x / B] ≠ bs[q / B] := fun h => hqx (hd.getElem_inj_iff.mp h)
    rw [put_block_ne hne (Nat.mod_lt x hB) hl, ← view_of_lt (m := m) hx]
    rcases Nat.lt_or_gt_of_ne hqx with h | h
    · have := Nat.mul_le_mul_right B (Nat.succ_le_of_lt h)
      have := Nat.mod_lt x hB
      rw [Nat.succ_mul] at *
      exact (put_of_lt (by omega)).symm
    · have := Nat.mul_le_mul_right B (Nat.succ_le_of_lt h)
      rw [Nat.succ_mul] at this
      exact (put_of_le (by omega)).symm

/-- The store after `l` is written over the blocks `ts`, a block after the other. -/
def scatter (B : Nat) (m : Nat → α) : List Nat → List α → Nat → α
  | [], _ => m
  | t :: ts, l => scatter B (put m (t * B) (l.take B)) ts (l.drop B)

@[simp] theorem scatter_nil_right : scatter B m bs [] = m := by
  induction bs generalizing m with
  | nil => rfl
  | cons t ts ih => simpa [scatter] using ih

/-- The other blocks keep their contents. -/
theorem scatter_of_notMem (ha : a ∉ bs) (hx : x < B) :
    scatter B m bs l (a * B + x) = m (a * B + x) := by
  induction bs generalizing m l with
  | nil => rfl
  | cons t ts ih =>
    rw [List.mem_cons, not_or] at ha
    rw [scatter, ih ha.2]
    exact put_block_start_ne ha.1 hx (List.length_take_le ..)

theorem view_congr (h : ∀ b ∈ bs, ∀ i < B, m' (b * B + i) = m (b * B + i)) (hB : 0 < B)
    (hx : x / B < bs.length) : view B m' bs x = view B m bs x := by
  rw [view_of_lt hx, view_of_lt hx]
  exact h _ (List.getElem_mem hx) _ (Nat.mod_lt x hB)

/-- Writing over the last blocks of a list, and over other ones, is a write to its contents. -/
theorem view_scatter {pre ts es : List Nat} (hd : (pre ++ ts).Nodup)
    (he : ∀ e ∈ es, e ∉ pre ++ ts) (hB : 0 < B) (hx : x / B < (pre ++ ts).length) :
    view B (scatter B m (ts ++ es) l) (pre ++ ts) x =
      put (view B m (pre ++ ts)) (pre.length * B) (l.take (ts.length * B)) x := by
  induction ts generalizing pre m l with
  | nil =>
    rw [List.length_nil, Nat.zero_mul, List.take_zero, put_nil]
    refine view_congr (fun b hb i hi => ?_) hB hx
    exact scatter_of_notMem (fun h => he b h hb) hi
  | cons t ts ih =>
    have hap : pre ++ t :: ts = pre ++ [t] ++ ts := by simp
    have hq : pre.length * B / B = pre.length := Nat.mul_div_cancel _ hB
    have hstep := view_put (m := m) (l := l.take B) (q := pre.length * B) hd hB
      (by rw [hq]; simp) (by rw [Nat.mul_mod_left, Nat.zero_add]; exact List.length_take_le B l) hx
    simp only [hq, Nat.mul_mod_left, Nat.add_zero, List.getElem_append_right (Nat.le_refl _),
      Nat.sub_self, List.getElem_cons_zero] at hstep
    rw [List.cons_append, scatter, hap, ih (hap ▸ hd) (hap ▸ he) (hap ▸ hx), ← hap]
    have htake : l.take ((t :: ts).length * B) = l.take B ++ (l.drop B).take (ts.length * B) := by
      rw [List.length_cons, Nat.succ_mul, Nat.add_comm, List.take_add]
    have hlen : (pre ++ [t]).length * B = pre.length * B + B := by
      rw [List.length_append, List.length_singleton, Nat.succ_mul]
    rw [htake, ← put_put, hlen]
    rcases Nat.lt_or_ge l.length B with hl | hl
    · rw [List.drop_of_length_le (by omega), List.take_nil, put_nil, put_nil]
      exact hstep
    · rw [List.length_take, Nat.min_eq_left hl]
      rcases Nat.lt_or_ge x (pre.length * B + B) with h | h
      · rw [put_of_lt h, put_of_lt h]
        exact hstep
      · exact put_congr hstep

/-! ## Numbers -/

/-- The number whose bytes, least significant first, are given. -/
def decodeLE : List UInt8 → Nat
  | [] => 0
  | x :: l => x.toNat + 256 * decodeLE l

/-- The `n` low bytes of a number. -/
def encodeLE : Nat → Nat → List UInt8
  | 0, _ => []
  | n + 1, x => x.toUInt8 :: encodeLE n (x / 256)

@[simp] theorem encodeLE_length : (encodeLE n x).length = n := by
  induction n generalizing x with
  | zero => rfl
  | succ n ih => simp [encodeLE, ih]

theorem decode_encodeLE (h : x < 256 ^ n) : decodeLE (encodeLE n x) = x := by
  induction n generalizing x with
  | zero => rw [Nat.pow_zero] at h; exact (Nat.lt_one_iff.mp h).symm
  | succ n ih =>
    rw [encodeLE, decodeLE, ih (Nat.div_lt_of_lt_mul (by rwa [Nat.pow_succ, Nat.mul_comm] at h))]
    simp only [Nat.toUInt8_eq, UInt8.toNat_ofNat']
    exact Nat.mod_add_div x 256

theorem encode_decodeLE (l : List UInt8) : encodeLE l.length (decodeLE l) = l := by
  induction l with
  | nil => rfl
  | cons x l ih =>
    have hx : (x.toNat + 256 * decodeLE l).toUInt8 = x := by
      rw [Nat.toUInt8_eq]
      exact UInt8.toNat_inj.mp (by simp)
    have hl : (x.toNat + 256 * decodeLE l) / 256 = decodeLE l := by
      have := x.toNat_lt
      omega
    rw [decodeLE, List.length_cons, encodeLE, hx, hl, ih]

theorem decodeLE_lt (l : List UInt8) : decodeLE l < 256 ^ l.length := by
  induction l with
  | nil => simp [decodeLE]
  | cons x l ih =>
    have := x.toNat_lt
    simp only [decodeLE, List.length_cons, Nat.pow_succ]
    omega

/-- The 32-bit word at `a`. -/
def word (m : Nat → UInt8) (a : Nat) : Nat := decodeLE (slice m a 4)

/-- The four bytes of a 32-bit word. -/
def le32 (x : Nat) : List UInt8 := encodeLE 4 x

@[simp] theorem le32_length : (le32 x).length = 4 := encodeLE_length

theorem decode_le32 (hx : x < 0x100000000) : decodeLE (le32 x) = x := decode_encodeLE hx

section

variable {m : Nat → UInt8} {l : List UInt8} {xs : List Nat}

theorem word_lt : word m a < 0x100000000 := by
  have := decodeLE_lt (slice m a 4)
  rwa [slice_length] at this

theorem le32_word : le32 (word m a) = slice m a 4 := by
  have := encode_decodeLE (slice m a 4)
  rwa [slice_length] at this

theorem word_put_of_disjoint (h : a + 4 ≤ b ∨ b + l.length ≤ a) :
    word (put m b l) a = word m a := by
  rw [word, slice_put_of_disjoint h, word]

theorem word_put (hx : x < 0x100000000) : word (put m a (le32 x ++ l)) a = x := by
  have h : slice (put m a (le32 x ++ l)) a 4 = le32 x := by
    rw [← put_put, slice_put_of_disjoint (.inl (by simp))]
    exact slice_put
  rw [word, h]
  exact decode_encodeLE hx

theorem word_put_le32 (hx : x < 0x100000000) : word (put m a (le32 x)) a = x := by
  simpa using word_put (l := []) hx

@[simp] theorem words_length : (xs.flatMap le32).length = 4 * xs.length := by
  simp [List.length_flatMap, Nat.mul_comm]

/-- The words of an array that was written. -/
theorem word_put_words (hi : i < xs.length) (hx : xs[i] < 0x100000000) :
    word (put m a (xs.flatMap le32)) (a + 4 * i) = xs[i] := by
  induction xs generalizing m a i with
  | nil => cases hi
  | cons y xs ih =>
    rw [List.flatMap_cons]
    cases i with
    | zero => exact word_put hx
    | succ i =>
      rw [← put_put, le32_length, show a + 4 * (i + 1) = a + 4 + 4 * i by omega]
      exact ih (by simpa using hi) hx

end

end K439
